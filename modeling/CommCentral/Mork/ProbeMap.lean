import CommCentral.Lib.Probing
import CommCentral.Mork.Map

/-!
# `morkProbeMap`

The hash table with linear probing of Mork, from `db/mork/src/morkProbeMap.cpp`.

* Keys and values stand in parallel arrays, here functions of the index; what is
  beyond `sMap_Slots` is never used.
* The tests on keys are virtual methods.  `ProbeForm` holds them with what the
  map relies on.  The format inside a map is the one outside, as in every
  subclass, so keys and values are copied as they are.  A value of size zero is
  neither stored nor handed out.
* A call is given a key that is not nil.
* Allocation is taken to succeed, so sizes do not wrap around.  The seed, which
  only iterators read, is left out.  An error is noted in the environment.
* `rehash_old_map` reads the old values at the offset of the new slot.  When that
  is beyond the old array the result is `none`.
-/

namespace CommCentral.Mork

inductive MorkTest where
  | hit
  | void
  | miss
  deriving DecidableEq, Repr

/-- The virtual methods of a map, its sizes and flags, and what they promise. -/
structure ProbeForm (K : Type) where
  mapTest : K → K → MorkTest
  mapHash : K → UInt32
  isKeyNil : K → Bool
  /-- The key that `ProbeMapClearKey` puts into every slot. -/
  clearKey : K
  zeroKey : K
  zeroIsClearKey : Bool
  valSize : ℕ
  /-- A slot is void exactly when its key is nil. -/
  test_void_iff : ∀ {m a}, isKeyNil a = false → (mapTest m a = .void ↔ isKeyNil m = true)
  /-- Hitting is an equivalence of keys that are not nil. -/
  equivalence : Equivalence fun a b : {k : K // isKeyNil k = false} =>
    (mapTest a.1 b.1 == .hit) = true
  hash_eq : ∀ {m a}, isKeyNil m = false → isKeyNil a = false → mapTest m a = .hit →
    mapHash m = mapHash a
  clear_nil : isKeyNil clearKey = true
  /-- Zero bytes are nil when they are good enough to clear keys. -/
  zero_nil : zeroIsClearKey = true → isKeyNil zeroKey = true

abbrev ProbeForm.AppKey {K : Type} (form : ProbeForm K) : Type := {k : K // form.isKeyNil k = false}

structure ProbeMap (K V : Type) where
  slots : ℕ
  fill : ℕ
  maxFill : ℕ
  keys : ℕ → K
  vals : ℕ → V
  /-- `need_lazy_init`. -/
  lazyClearOnAdd : Bool
  good : Bool

namespace ProbeMap

variable {K V : Type} {form : ProbeForm K}

def maxFillOf (slots : ℕ) : ℕ := slots - (slots / 7 + 1)

/-- The constructor with `init_probe_map`. -/
def init [Inhabited V] (form : ProbeForm K) (inSlots : ℕ) : ProbeMap K V :=
  let slots := if inSlots < 7 then 7 else min inSlots (128 * 1024)
  ⟨slots, 0, maxFillOf slots, fun _ => form.zeroKey, fun _ => default, !form.zeroIsClearKey, true⟩

/-- `find_key_pos`: the test and the slot, and whether the walk went all the way around. -/
def findKeyPos (form : ProbeForm K) (map : ProbeMap K V) (inAppKey : K) (inHash : UInt32) :
    MorkTest × ℕ × Bool :=
  let startPos := inHash.toNat % map.slots
  match Probing.walk map.slots (fun i => form.mapTest (map.keys i) inAppKey ≠ .miss) startPos
      map.slots startPos with
  | some i => (form.mapTest (map.keys i) inAppKey, i, false)
  | none => (.miss, startPos, true)

/-- The body of the loop of `rehash_old_map`, for the slot `j` of the old arrays. -/
def rehashSlot (form : ProbeForm K) (old map : ProbeMap K V) (j : ℕ) : Option (ProbeMap K V) :=
  if !map.good then some map
  else if form.isKeyNil (old.keys j) then some map
  else
    let startPos := (form.mapHash (old.keys j)).toNat % map.slots
    match Probing.walk map.slots (fun i => form.isKeyNil (map.keys i)) startPos map.slots
        startPos with
    | none => some { map with good := false }
    | some i =>
      let map := { map with keys := Function.update map.keys i (old.keys j) }
      if form.valSize = 0 then some map
      else if i < old.slots then some { map with vals := Function.update map.vals i (old.vals i) }
      else none

def rehashOldMap (form : ProbeForm K) (old map : ProbeMap K V) : Option (ProbeMap K V) :=
  ((List.range old.slots).foldlM (rehashSlot form old) map).map fun map =>
    if map.good then
      { map with fill := ((List.range old.slots).filter fun j => !form.isKeyNil (old.keys j)).length }
    else map

/-- The arrays after `new_slots`. -/
def newSlots [Inhabited V] (form : ProbeForm K) (map : ProbeMap K V) (inSlots : ℕ) : ProbeMap K V :=
  { map with slots := inSlots, keys := fun _ => form.zeroKey, vals := fun _ => default }

def growProbeMap [Inhabited V] (form : ProbeForm K) (map : ProbeMap K V) : Option (ProbeMap K V) :=
  (rehashOldMap form map (map.newSlots form (map.slots * 4 / 3 + 1))).map fun new =>
    let new :=
      if new.good then
        if maxFillOf new.slots > new.fill then { new with maxFill := maxFillOf new.slots }
        else { new with good := false }
      else new
    if new.good then new
    else { new with slots := map.slots, keys := map.keys, vals := map.vals }

def putProbeKv [Inhabited V] (form : ProbeForm K) (map : ProbeMap K V) (inAppKey : K) (inAppVal : V)
    (inPos : ℕ) : Option (ProbeMap K V) :=
  let map :=
    if form.valSize ≠ 0 then { map with vals := Function.update map.vals inPos inAppVal } else map
  let map := { map with keys := Function.update map.keys inPos inAppKey }
  if map.fill > map.maxFill then map.growProbeMap form else some map

def getProbeKv (form : ProbeForm K) (map : ProbeMap K V) (inPos : ℕ) : K × Option V :=
  (map.keys inPos, if form.valSize ≠ 0 then some (map.vals inPos) else none)

/-- `probe_map_lazy_init`, when it is due. -/
def lazyInit (form : ProbeForm K) (map : ProbeMap K V) : ProbeMap K V :=
  if map.lazyClearOnAdd ∧ map.fill = 0 then
    { map with
      keys := fun _ => if form.zeroIsClearKey then form.zeroKey else form.clearKey
      lazyClearOnAdd := false }
  else map

/-- `MapAtPut`: the map, and what was there before. -/
def mapAtPut [Inhabited V] (form : ProbeForm K) (map : ProbeMap K V) (inAppKey : K) (inAppVal : V) :
    Option (ProbeMap K V × Option (K × Option V)) :=
  let map := map.lazyInit form
  if map.good then
    let (test, slotPos, wrapped) := map.findKeyPos form inAppKey (form.mapHash inAppKey)
    let map := { map with good := !wrapped }
    let found := if test = .hit then some (map.getProbeKv form slotPos) else none
    let map := if test = .hit then map else { map with fill := map.fill + 1 }
    if test ≠ .miss then
      (map.putProbeKv form inAppKey inAppVal slotPos).map fun map => (map, found)
    else some (map, found)
  else some (map, none)

/-- `MapAt`: the map, and what was found. -/
def mapAt (form : ProbeForm K) (map : ProbeMap K V) (inAppKey : K) :
    ProbeMap K V × Option (K × Option V) :=
  let map := map.lazyInit form
  let (test, slotPos, wrapped) := map.findKeyPos form inAppKey (form.mapHash inAppKey)
  let map := { map with good := map.good && !wrapped }
  (map, if test = .hit then some (map.getProbeKv form slotPos) else none)

/-- `MapCutAll`: the map, and the number of members. -/
def mapCutAll (form : ProbeForm K) (map : ProbeMap K V) : ProbeMap K V × ℕ :=
  let keys := if !form.zeroIsClearKey then fun _ => form.clearKey else map.keys
  ({ map with keys := keys, fill := 0 }, map.fill)

end ProbeMap

/-! ## Runs -/

/-- A call on a probe map. -/
inductive ProbeOp (A V : Type) where
  | mapAtPut (inAppKey : A) (inAppVal : V)
  | mapAt (inAppKey : A)
  | mapCutAll

variable {K V : Type} [Inhabited V]

/-- A call, `none` if it reads beyond an array. -/
def ProbeMap.call (form : ProbeForm K) (map : ProbeMap K V) :
    ProbeOp form.AppKey V → Option (ProbeMap K V × MapReply K (Option V))
  | .mapAtPut inAppKey inAppVal =>
    (map.mapAtPut form inAppKey.1 inAppVal).map fun (map, found) => (map, .assoc found)
  | .mapAt inAppKey => some ((map.mapAt form inAppKey.1).1, .assoc (map.mapAt form inAppKey.1).2)
  | .mapCutAll => some ((map.mapCutAll form).1, .count (map.mapCutAll form).2)

def probeStep (form : ProbeForm K) :
    Machine.Step (Option (ProbeMap K V)) (ProbeOp form.AppKey V) (Option (MapReply K (Option V))) :=
  Machine.ofPartial (ProbeMap.call form)

end CommCentral.Mork
