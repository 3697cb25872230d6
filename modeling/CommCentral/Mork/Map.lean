import CommCentral.Lib.Links
import CommCentral.Lib.Machine
import Mathlib.Data.UInt

/-!
# `morkMap`

The hash table of Mork, from `db/mork/src/morkMap.cpp`.

* Keys, values and links (`morkAssoc`) stand in parallel arrays, here functions
  of the index; what is beyond `mMap_Slots` is never used.  Zero bytes are the
  default key and value.
* A `morkAssoc*` is an index, and a `morkAssoc**` is the address of one of the
  links: a bucket, the link of an assoc or the head of the free list.
* `Equal` and `Hash` are methods of the subclasses.  `MapForm` holds them with
  what the map relies on: equality is an equivalence and equal keys hash alike.
* Allocation is taken to succeed.  The change array, which no function here
  reads, and the seed, which only iterators read, are left out.
-/

namespace CommCentral.Mork

/-- The methods of a map and what they promise. -/
structure MapForm (K : Type) where
  equal : K → K → Bool
  hash : K → UInt32
  equivalence : Equivalence fun a b => equal a b = true
  hash_eq : ∀ {a b}, equal a b = true → hash a = hash b

inductive LinkRef where
  /-- A bucket of `mMap_Buckets`. -/
  | bucket (b : ℕ)
  /-- `mAssoc_Next` of an assoc. -/
  | next (i : ℕ)
  /-- `mMap_FreeList`. -/
  | freeList
  deriving DecidableEq, Repr

structure Map (K V : Type) where
  slots : ℕ
  fill : ℕ
  keys : ℕ → K
  vals : ℕ → V
  links : LinkRef → Option ℕ

/-- `new_assocs` and `new_buckets`: every assoc is free, and every bucket is empty. -/
def newLinks (inSlots : ℕ) : LinkRef → Option ℕ
  | .bucket _ => none
  | .next i => if i + 1 < inSlots then some (i + 1) else none
  | .freeList => some 0

namespace Map

variable {K V : Type}

/-- `InitMap`. -/
def init [Inhabited K] [Inhabited V] (inSlots : ℕ) : Map K V :=
  let slots := if inSlots < 3 then 3 else min inSlots (128 * 1024)
  ⟨slots, 0, fun _ => default, fun _ => default, newLinks slots⟩

def bucketOf (form : MapForm K) (map : Map K V) (inKey : K) : LinkRef :=
  .bucket ((form.hash inKey).toNat % map.slots)

/-- The loop of `find`.  After more passes than there are assocs it goes on forever. -/
def findFrom (form : MapForm K) (map : Map K V) (inKey : K) :
    ℕ → LinkRef → Option (Option LinkRef)
  | 0, _ => none
  | fuel + 1, ref =>
    match map.links ref with
    | none => some none
    | some i =>
      if form.equal (map.keys i) inKey then some (some ref)
      else findFrom form map inKey fuel (.next i)

/-- `find`: the address of the link to the assoc of the key. -/
def find (form : MapForm K) (map : Map K V) (inKey : K) : Option (Option LinkRef) :=
  findFrom form map inKey (map.slots + 1) (map.bucketOf form inKey)

def getAssoc (map : Map K V) (i : ℕ) : K × V := (map.keys i, map.vals i)

def putAssoc (map : Map K V) (inKey : K) (inVal : V) (i : ℕ) : Map K V :=
  { map with keys := Function.update map.keys i inKey, vals := Function.update map.vals i inVal }

def pushAssoc (map : Map K V) (ref : LinkRef) (i : ℕ) : Map K V :=
  { map with links := Links.push .next map.links ref i }

/-- `pop_free_assoc`: the assoc, if there is one, and the map. -/
def popFreeAssoc (map : Map K V) : Option ℕ × Map K V :=
  match map.links .freeList with
  | none => (none, map)
  | some i =>
    (some i, { map with links := Function.update map.links .freeList (map.links (.next i)) })

/-- The arrays of `grow` before the keys are hashed again. -/
def growArrays [Inhabited K] [Inhabited V] (map : Map K V) : Map K V where
  slots := map.slots * 2
  fill := map.fill
  keys i := if i < map.slots then map.keys i else default
  vals i := if i < map.slots then map.vals i else default
  links := Function.update (newLinks (map.slots * 2)) .freeList (some map.slots)

def grow [Inhabited K] [Inhabited V] (form : MapForm K) (map : Map K V) : Map K V :=
  (List.range map.slots).foldl
    (fun new i => new.pushAssoc (new.bucketOf form (new.keys i)) i) map.growArrays

/-- The allocation of an assoc in `Put`: from the free list, or after growing. -/
def allocAssoc [Inhabited K] [Inhabited V] (form : MapForm K) (map : Map K V) :
    Option ℕ × Map K V :=
  match map.popFreeAssoc with
  | (none, map) => (map.grow form).popFreeAssoc
  | popped => popped

/-- A taken assoc becomes the one of a new key. -/
def addAssoc (form : MapForm K) (map : Map K V) (inKey : K) (inVal : V) (i : ℕ) : Map K V :=
  { map.pushAssoc (map.bucketOf form inKey) i with fill := map.fill + 1 }.putAssoc inKey inVal i

/-- `Put`: what was there before, `none` if nothing was. -/
def put [Inhabited K] [Inhabited V] (form : MapForm K) (map : Map K V) (inKey : K) (inVal : V) :
    Option (Map K V × Option (K × V)) :=
  (map.find form inKey).map fun
    | some ref =>
      match map.links ref with
      | some i => (map.putAssoc inKey inVal i, some (map.getAssoc i))
      | none => (map, none)  -- not reached: `find` gives a link to an assoc
    | none =>
      match map.allocAssoc form with
      | (some i, map) => (map.addAssoc form inKey inVal i, none)
      | (none, map) => (map, none)

/-- The assoc that a link leads to is unlinked and becomes free. -/
def removeAssoc (map : Map K V) (ref : LinkRef) (i : ℕ) : Map K V :=
  let unlinked := { map with links := Function.update map.links ref (map.links (.next i)) }
  { unlinked.pushAssoc .freeList i with fill := map.fill - 1 }

/-- `CutAll`: the number of members. -/
def cutAll (map : Map K V) : Map K V × ℕ :=
  ({ map with
      fill := 0
      links := fun
        | .bucket b => map.links (.bucket b)
        | ref => newLinks map.slots ref },
    map.fill)

/-- `Cut`: what was there before. -/
def cut (form : MapForm K) (map : Map K V) (inKey : K) : Option (Map K V × Option (K × V)) :=
  (map.find form inKey).map fun
    | none => (map, none)
    | some ref =>
      match map.links ref with
      | none => (map, none)  -- not reached
      | some i => (map.removeAssoc ref i, some (map.getAssoc i))

def get (form : MapForm K) (map : Map K V) (inKey : K) : Option (Option (K × V)) :=
  (map.find form inKey).map fun found =>
    (found.bind map.links).map map.getAssoc

end Map

/-! ## Runs -/

inductive MapOp (K V : Type) where
  | put (inKey : K) (inVal : V)
  | get (inKey : K)
  | cut (inKey : K)
  | cutAll

inductive MapReply (K V : Type) where
  | assoc (found : Option (K × V))
  | count (n : ℕ)
  deriving DecidableEq

variable {K V : Type} [Inhabited K] [Inhabited V]

/-- A call, `none` if it does not return. -/
def Map.call (form : MapForm K) (map : Map K V) :
    MapOp K V → Option (Map K V × MapReply K V)
  | .put inKey inVal => (map.put form inKey inVal).map fun (map, found) => (map, .assoc found)
  | .get inKey => (map.get form inKey).map fun found => (map, .assoc found)
  | .cut inKey => (map.cut form inKey).map fun (map, found) => (map, .assoc found)
  | .cutAll => some (map.cutAll.1, .count map.cutAll.2)

/-- The map as a machine; `none` is a map in a call that does not return. -/
def mapStep (form : MapForm K) :
    Machine.Step (Option (Map K V)) (MapOp K V) (Option (MapReply K V)) :=
  Machine.ofPartial (Map.call form)

end CommCentral.Mork
