import CommCentral.Mork.MapRefinement
import CommCentral.Mork.ProbeMap

/-!
# A probe map refines a finite partial map

The abstract map is the one of `morkMap`: it takes a key, up to hitting, to the
key that was put last and its value.  `Filled` relates it to the arrays: the
slots whose key is not nil hold the members, and each is reached from the home
slot of its key over slots in use.

Three things go wrong in the code.  `MapCutAll` leaves the keys in their slots
when zero is the clear key.  When a map grows, the new keys are never cleared,
so they are void only when zero bytes are nil; and a value is copied from the
offset of the new slot instead of the old one.  A run without these refines the
abstract map (`probeMap_refines`).
-/

namespace CommCentral.Mork

open Function List ProbeMap ProbeForm Finmap Nat

open Probing (Reached Stops walk)

/-! ## Keys up to hitting -/

section Keys

variable {K : Type} (form : ProbeForm K)

/-- The map form of a probe form.  All keys that are nil are taken to be equal. -/
def ProbeForm.mapForm : MapForm K where
  equal a b :=
    if form.isKeyNil a then form.isKeyNil b
    else !form.isKeyNil b && form.mapTest a b == .hit
  hash a := if form.isKeyNil a then 0 else form.mapHash a
  equivalence := by
    have hequiv := form.equivalence
    refine ⟨fun a => ?_, fun {a b} h => ?_, fun {a b c} h h' => ?_⟩
    · cases ha : form.isKeyNil a with
      | true => rw [if_pos rfl]
      | false => simpa using hequiv.refl ⟨a, ha⟩
    · cases ha : form.isKeyNil a <;> cases hb : form.isKeyNil b <;> simp [ha, hb] at h ⊢
      simpa using hequiv.symm (x := ⟨a, ha⟩) (y := ⟨b, hb⟩) (by simpa using h)
    · cases ha : form.isKeyNil a <;> cases hb : form.isKeyNil b <;> cases hc : form.isKeyNil c <;>
        simp [ha, hb, hc] at h h' ⊢
      simpa using hequiv.trans (x := ⟨a, ha⟩) (y := ⟨b, hb⟩) (z := ⟨c, hc⟩) (by simpa using h)
        (by simpa using h')
  hash_eq := by
    intro a b h
    cases ha : form.isKeyNil a <;> cases hb : form.isKeyNil b <;> simp [ha, hb] at h ⊢
    exact form.hash_eq ha hb h

variable {form} {a b : K}

section

variable (ha : form.isKeyNil a = false) (hb : form.isKeyNil b = false)

include ha hb

/-- Keys that are not nil are equal when one hits the other. -/
theorem ProbeForm.key_eq_iff :
    form.mapForm.key a = form.mapForm.key b ↔ form.mapTest a b = .hit := by
  rw [MapForm.key_eq_iff, mapForm]
  simp [ha, hb]

/-- Equal keys that are not nil have one home slot. -/
theorem ProbeForm.hash_eq_of_key_eq (h : form.mapForm.key a = form.mapForm.key b)
    : form.mapHash a = form.mapHash b :=
  form.hash_eq ha hb ((key_eq_iff ha hb).mp h)

theorem ProbeForm.test_of_not_nil :
    form.mapTest a b = if form.mapForm.key a = form.mapForm.key b then .hit else .miss := by
  have hvoid : form.mapTest a b ≠ .void := fun h => by
    rw [form.test_void_iff hb, ha] at h
    cases h
  have hhit := key_eq_iff ha hb
  cases htest : form.mapTest a b with
  | hit => rw [if_pos (hhit.mpr htest)]
  | void => exact absurd htest hvoid
  | miss =>
    rw [if_neg fun h => ?_]
    rw [hhit, htest] at h
    cases h

end

end Keys

/-! ## Slots in use -/

section Slots

variable {K V : Type} {form : ProbeForm K} {map : ProbeMap K V} {a : K} {v : V} {i : ℕ}
  {m : AbstractMap form.mapForm (Option V)}

/-- The slots in use. -/
def ProbeMap.members (form : ProbeForm K) (map : ProbeMap K V) : List ℕ :=
  (List.range map.slots).filter fun i => !form.isKeyNil (map.keys i)

/-- The slot where the walk for a key starts. -/
def ProbeMap.home (form : ProbeForm K) (map : ProbeMap K V) (a : K) : ℕ :=
  (form.mapHash a).toNat % map.slots

/-- What is handed out of a value. -/
def ProbeForm.stored (form : ProbeForm K) (v : V) : Option V :=
  if form.valSize ≠ 0 then some v else none

/-- The slots in use hold the members of the abstract map, where they are found. -/
structure Filled (form : ProbeForm K) (map : ProbeMap K V)
    (m : AbstractMap form.mapForm (Option V)) : Prop where
  holds : Holds form.mapForm map.keys (fun i => form.stored (map.vals i)) (map.members form) m
  reached : ∀ i ∈ map.members form,
    Reached map.slots (map.home form (map.keys i)) (· ∈ map.members form) i

theorem mem_members : i ∈ map.members form ↔ i < map.slots ∧ form.isKeyNil (map.keys i) = false := by
  simp [members]

theorem nodup_members : (map.members form).Nodup := nodup_range.filter _

/-- When fewer slots are in use than there are, one is void. -/
theorem exists_void (h : (map.members form).length < map.slots) :
    ∃ i < map.slots, form.isKeyNil (map.keys i) = true := by
  by_contra hnone
  push Not at hnone
  have hall : map.members form = List.range map.slots :=
    filter_eq_self.mpr fun i hi => by simpa using hnone i (mem_range.mp hi)
  rw [hall, length_range] at h
  exact lt_irrefl _ h

/-- A walk for a key stops at a slot with the key, or at a void one when there is none. -/
theorem Filled.find (h : Filled form map m) (hvoid : (map.members form).length < map.slots)
    (ha : form.isKeyNil a = false) :
    (∃ i ∈ map.members form, form.mapForm.key (map.keys i) = form.mapForm.key a ∧
        map.findKeyPos form a (form.mapHash a) = (.hit, i, false)) ∨
      form.mapForm.key a ∉ m ∧ ∃ i < map.slots, form.isKeyNil (map.keys i) = true ∧
        Reached map.slots (map.home form a) (· ∈ map.members form) i ∧
        map.findKeyPos form a (form.mapHash a) = (.void, i, false) := by
  have hpos : 0 < map.slots := by omega
  have hstart : map.home form a < map.slots := mod_lt _ hpos
  obtain ⟨j, hj, hjnil⟩ := exists_void hvoid
  have hjtest : form.mapTest (map.keys j) a = .void := (form.test_void_iff ha).mpr hjnil
  obtain ⟨d, hstops⟩ := Probing.exists_stops (p := fun i => form.mapTest (map.keys i) a ≠ .miss)
    hstart hj (by simp [hjtest])
  have hwalk := hstops.walk_eq hstart
  generalize hi : (map.home form a + d) % map.slots = i at hwalk
  have hlt : i < map.slots := hi ▸ mod_lt _ hpos
  have hfind : map.findKeyPos form a (form.mapHash a) =
      (form.mapTest (map.keys i) a, i, false) := by
    rw [home] at hwalk
    simp only [findKeyPos, hwalk]
  have hfound : form.mapTest (map.keys i) a ≠ .miss := by
    have hp := hstops.found
    rw [hi] at hp
    simpa using hp
  cases hnil : form.isKeyNil (map.keys i) with
  | false =>
    rw [test_of_not_nil hnil ha] at hfind hfound
    split_ifs at hfind hfound with hkey
    · exact .inl ⟨i, mem_members.mpr ⟨hlt, hnil⟩, hkey, hfind⟩
    · exact absurd rfl hfound
  | true =>
    rw [(form.test_void_iff ha).mpr hnil] at hfind
    have hpassed : ∀ k < map.slots, (decide (form.mapTest (map.keys k) a ≠ .miss)) = false →
        k ∈ map.members form := fun k hk hmiss => by
      refine mem_members.mpr ⟨hk, ?_⟩
      rw [← Bool.not_eq_true, ← form.test_void_iff ha]
      intro hvoid
      simp [hvoid] at hmiss
    have hnot : i ∉ map.members form := fun hmem => by
      rw [(mem_members.mp hmem).2] at hnil
      cases hnil
    refine .inr ⟨fun hmem => ?_, i, hlt, hnil, hi ▸ hstops.reached hpassed, hfind⟩
    -- a slot with the key would be reached before
    obtain ⟨k, hk, hkey⟩ := h.holds.mem _ hmem
    have hknil := (mem_members.mp hk).2
    have hreached := h.reached k hk
    rw [home, hash_eq_of_key_eq hknil ha hkey] at hreached
    have hhit : form.mapTest (map.keys k) a = .hit := (key_eq_iff hknil ha).mp hkey
    rcases hstops.used_or_eq hreached (by simp [hhit]) with hused | heq
    · exact hnot (hi ▸ hused)
    · exact hnot (hi ▸ heq ▸ hk)

/-- A walk for a void slot stops at one that is reached. -/
theorem Filled.findVoid (hvoid : (map.members form).length < map.slots) (a : K) :
    ∃ i < map.slots, form.isKeyNil (map.keys i) = true ∧
      Reached map.slots (map.home form a) (· ∈ map.members form) i ∧
      walk map.slots (fun i => form.isKeyNil (map.keys i)) (map.home form a) map.slots
        (map.home form a) = some i := by
  have hpos : 0 < map.slots := by omega
  have hstart : map.home form a < map.slots := mod_lt _ hpos
  obtain ⟨j, hj, hjnil⟩ := exists_void hvoid
  obtain ⟨d, hstops⟩ := Probing.exists_stops (p := fun i => form.isKeyNil (map.keys i)) hstart hj
    hjnil
  exact ⟨_, mod_lt _ hpos, hstops.found,
    hstops.reached fun k hk hknil => mem_members.mpr ⟨hk, hknil⟩, hstops.walk_eq hstart⟩

/-! ## Slots that are written -/

variable {map' : ProbeMap K V}

/-- The slots in use after a key is put into one. -/
theorem mem_members_update (hslots : map'.slots = map.slots)
    (hkeys : map'.keys = update map.keys i a) (ha : form.isKeyNil a = false)
    (hi : i < map.slots) {j : ℕ} : j ∈ map'.members form ↔ j = i ∨ j ∈ map.members form := by
  rw [mem_members, mem_members, hslots, hkeys]
  rcases eq_or_ne j i with rfl | hj
  · simp [hi, ha]
  · simp [hj]

section

variable (h : Filled form map m) (hslots : map'.slots = map.slots)
    (hkeys : map'.keys = Function.update map.keys i a) (hvals : (fun j => form.stored (map'.vals j))
      = Function.update (fun j => form.stored (map.vals j)) i (form.stored v))
    (ha : form.isKeyNil a = false)

include h hslots hkeys hvals ha

/-- A key that hits the one in a slot takes its place. -/
theorem Filled.replace (hi : i ∈ map.members form)
    (hkey : form.mapForm.key (map.keys i) = form.mapForm.key a) :
    Filled form map' (m.insert (form.mapForm.key a) (a, form.stored v)) ∧
      (map'.members form).length = (map.members form).length := by
  obtain ⟨hlt, hnil⟩ := mem_members.mp hi
  have hmem : ∀ j, j ∈ map'.members form ↔ j ∈ map.members form := fun j => by
    rw [mem_members_update hslots hkeys ha hlt]
    refine or_iff_right_of_imp ?_
    rintro rfl
    exact hi
  refine ⟨⟨?_, fun j hj => ?_⟩,
    ((perm_ext_iff_of_nodup nodup_members nodup_members).mpr hmem).length_eq⟩
  · rw [hvals, hkeys]
    exact (h.holds.replace hi hkey).congr hmem (fun _ _ => rfl) fun _ _ => rfl
  · have hhome : map'.home form (map'.keys j) = map.home form (map.keys j) := by
      rw [home, home, hslots, hkeys]
      rcases eq_or_ne j i with rfl | hji
      · rw [update_self, hash_eq_of_key_eq hnil ha hkey]
      · rw [update_of_ne hji]
    rw [hslots, hhome]
    exact (h.reached j ((hmem j).mp hj)).mono fun k hk => (hmem k).mpr hk

/-- A new key is put into a void slot that is reached from its home. -/
theorem Filled.insert (hi : i < map.slots) (hnil : form.isKeyNil (map.keys i) = true)
    (hnew : form.mapForm.key a ∉ m)
    (hreached : Reached map.slots (map.home form a) (· ∈ map.members form) i) :
    Filled form map' (m.insert (form.mapForm.key a) (a, form.stored v)) ∧
      (map'.members form).length = (map.members form).length + 1 := by
  have hnot : i ∉ map.members form := fun hmem => by
    rw [(mem_members.mp hmem).2] at hnil
    cases hnil
  have hmem : ∀ j, j ∈ map'.members form ↔ j ∈ i :: map.members form := fun j => by
    rw [mem_members_update hslots hkeys ha hi, mem_cons]
  refine ⟨⟨?_, fun j hj => ?_⟩, ?_⟩
  · rw [hvals, hkeys]
    exact (h.holds.insert hnot hnew).congr hmem (fun _ _ => rfl) fun _ _ => rfl
  · have hmono : ∀ k, k ∈ map.members form → k ∈ map'.members form := fun k hk =>
      (hmem k).mpr (mem_cons_of_mem _ hk)
    rw [home, hslots, hkeys]
    rcases mem_cons.mp ((hmem j).mp hj) with rfl | hj
    · rw [update_self]
      exact hreached.mono hmono
    · have hji : j ≠ i := by
        rintro rfl
        exact hnot hj
      rw [update_of_ne hji]
      exact (h.reached j hj).mono hmono
  · have hnodup : (i :: map.members form).Nodup := nodup_cons.mpr ⟨hnot, nodup_members⟩
    exact ((perm_ext_iff_of_nodup nodup_members hnodup).mpr hmem).length_eq

end

/-- What is handed out after a value is put into a slot. -/
theorem stored_update (vals : ℕ → V) (i : ℕ) (v : V) :
    (fun j => form.stored ((if form.valSize ≠ 0 then update vals i v else vals) j)) =
      update (fun j => form.stored (vals j)) i (form.stored v) := by
  funext j
  rcases eq_or_ne j i with rfl | hj
  · rw [stored, stored]
    split_ifs <;> simp
  · rw [update_of_ne hj]
    split_ifs
    · rw [update_of_ne hj]
    · rfl

end Slots

/-! ## Growing -/

section Growing

variable {K V : Type} {form : ProbeForm K} {map old new : ProbeMap K V} {a : K}
  {v : V} {m : AbstractMap form.mapForm (Option V)}

/-- The state of the loop of `rehash_old_map` after the first slots. -/
structure Reprobed (form : ProbeForm K) (old new : ProbeMap K V) (slots n : ℕ)
    (m : AbstractMap form.mapForm (Option V)) : Prop where
  fields : new.slots = slots ∧ new.fill = old.fill ∧ new.maxFill = old.maxFill ∧
    new.lazyClearOnAdd = old.lazyClearOnAdd ∧ new.good = true
  filled : Filled form new m
  /-- It has the members of the old slots so far. -/
  members : ∀ q x, m.lookup q = some x ↔ ∃ j < n, j ∈ old.members form ∧
    form.mapForm.key (old.keys j) = q ∧ x = (old.keys j, none)

theorem filled_empty (hnil : ∀ i < map.slots, form.isKeyNil (map.keys i) = true) :
    Filled form map ∅ ∧ map.members form = [] := by
  have hnone : map.members form = [] := filter_eq_nil_iff.mpr fun i hi => by
    simpa using hnil i (mem_range.mp hi)
  refine ⟨⟨?_, fun i hi => ?_⟩, hnone⟩
  · rw [hnone]
    constructor <;> simp [notMem_empty]
  · rw [hnone] at hi
    cases hi

/-- The number of members of a map that holds them. -/
theorem Filled.card (h : Filled form map m) : m.keys.card = (map.members form).length :=
  h.holds.card nodup_members

theorem Filled.lookup_iff (h : Filled form map m) (hsize : form.valSize = 0)
    (q : form.mapForm.Key) (x : K × Option V) :
    m.lookup q = some x ↔ ∃ j ∈ map.members form,
      form.mapForm.key (map.keys j) = q ∧ x = (map.keys j, none) := by
  have hstored : ∀ v : V, form.stored v = none := fun v => by simp [stored, hsize]
  constructor
  · intro hq
    obtain ⟨j, hj, rfl⟩ := h.holds.mem q (mem_of_lookup_eq_some hq)
    have hlookup := h.holds.lookup j hj
    rw [hq, Option.some.injEq, hstored] at hlookup
    exact ⟨j, hj, rfl, hlookup⟩
  · rintro ⟨j, hj, rfl, rfl⟩
    rw [h.holds.lookup j hj, hstored]

/-- The slot of the old arrays that comes next is rehashed. -/
theorem Reprobed.step {slots n : ℕ} (h : Reprobed form old new slots n m)
    {mo : AbstractMap form.mapForm (Option V)} (hold : Filled form old mo)
    (hsize : form.valSize = 0) (hn : n < old.slots) (hroom : (old.members form).length < slots) :
    ∃ new' m', rehashSlot form old new n = some new' ∧
      Reprobed form old new' slots (n + 1) m' := by
  obtain ⟨hslots, hfill, hmax, hlazy, hgood⟩ := h.fields
  have hcond : ¬ (!new.good) = true := by simp [hgood]
  rw [rehashSlot, if_neg hcond]
  cases hnil : form.isKeyNil (old.keys n) with
  | true =>
    refine ⟨new, m, by simp, h.fields, h.filled, fun q x => (h.members q x).trans ?_⟩
    constructor
    · rintro ⟨j, hj, hmem⟩
      exact ⟨j, by omega, hmem⟩
    · rintro ⟨j, hj, hmem, hrest⟩
      refine ⟨j, ?_, hmem, hrest⟩
      rcases Nat.lt_succ_iff_lt_or_eq.mp hj with hlt | rfl
      · exact hlt
      · rw [(mem_members.mp hmem).2] at hnil
        cases hnil
  | false =>
    have hmemn : n ∈ old.members form := mem_members.mpr ⟨hn, hnil⟩
    have hnew : form.mapForm.key (old.keys n) ∉ m := fun hmem => by
      obtain ⟨x, hx⟩ := Option.isSome_iff_exists.mp (lookup_isSome.mpr hmem)
      obtain ⟨j, hj, hjmem, hkey, -⟩ := (h.members _ x).mp hx
      exact hj.ne (hold.holds.distinct j hjmem n hmemn hkey)
    have hle : (new.members form).length ≤ (old.members form).length := by
      rw [← h.filled.card, ← hold.card]
      refine Finset.card_le_card fun q hq => ?_
      obtain ⟨x, hx⟩ := Option.isSome_iff_exists.mp (lookup_isSome.mpr hq)
      obtain ⟨j, -, hjmem, hkey, rfl⟩ := (h.members q x).mp hx
      exact mem_of_lookup_eq_some ((hold.lookup_iff hsize q _).mpr ⟨j, hjmem, hkey, rfl⟩)
    obtain ⟨i, hi, hinil, hreached, hwalk⟩ :=
      @Filled.findVoid K V form new (by omega) (old.keys n)
    have hvals : (fun j => form.stored (new.vals j)) =
        update (fun j => form.stored (new.vals j)) i (form.stored (new.vals 0)) := by
      simp [stored, hsize]
    obtain ⟨hfilled, -⟩ := @Filled.insert K V form new (old.keys n) (new.vals 0) i m
      { new with keys := update new.keys i (old.keys n) } h.filled rfl rfl hvals hnil hi
      hinil hnew hreached
    rw [home] at hwalk
    refine ⟨{ new with keys := update new.keys i (old.keys n) }, _,
      by simp [hwalk, hsize], ⟨hslots, hfill, hmax, hlazy, hgood⟩,
      hfilled, fun q x => ?_⟩
    have hnone : form.stored (new.vals 0) = none := by simp [stored, hsize]
    rcases eq_or_ne q (form.mapForm.key (old.keys n)) with rfl | hq
    · rw [lookup_insert, Option.some.injEq, hnone]
      constructor
      · rintro rfl
        exact ⟨n, lt_succ_self n, hmemn, rfl, rfl⟩
      · rintro ⟨j, -, hjmem, hkey, rfl⟩
        rw [hold.holds.distinct j hjmem n hmemn hkey]
    · rw [lookup_insert_of_ne _ hq, h.members]
      constructor
      · rintro ⟨j, hj, hrest⟩
        exact ⟨j, by omega, hrest⟩
      · rintro ⟨j, hj, hjmem, hkey, hx⟩
        refine ⟨j, ?_, hjmem, hkey, hx⟩
        rcases Nat.lt_succ_iff_lt_or_eq.mp hj with hlt | rfl
        · exact hlt
        · exact absurd hkey.symm hq

/-- The loop of `rehash_old_map`. -/
theorem Filled.reprobed (hold : Filled form old m) (hsize : form.valSize = 0) {slots : ℕ}
    (hroom : (old.members form).length < slots) (hstart : Reprobed form old new slots 0 ∅) (n : ℕ)
    (hn : n ≤ old.slots) :
    ∃ new' m', (List.range n).foldlM (rehashSlot form old) new = some new' ∧
      Reprobed form old new' slots n m' := by
  induction n with
  | zero => exact ⟨new, ∅, rfl, hstart⟩
  | succ n ih =>
    obtain ⟨new₁, m₁, hfold, hprobed⟩ := ih (by omega)
    obtain ⟨new₂, m₂, hstep, hprobed'⟩ := hprobed.step hold hsize hn hroom
    refine ⟨new₂, m₂, ?_, hprobed'⟩
    rw [range_succ, foldlM_append, hfold]
    simpa using hstep

/-- A map without values grows, when zero bytes are nil. -/
theorem Filled.grow [Inhabited V] (h : Filled form map m) (hsize : form.valSize = 0)
    (hzero : form.isKeyNil form.zeroKey = true) (hgood : map.good = true)
    (hfill : map.fill = (map.members form).length) (hslots : 7 ≤ map.slots)
    (hroom : map.fill ≤ maxFillOf map.slots + 1) :
    ∃ new, map.growProbeMap form = some new ∧ Filled form new m ∧ new.fill = map.fill ∧
      7 ≤ new.slots ∧ new.maxFill = maxFillOf new.slots ∧ new.fill ≤ new.maxFill ∧
      new.lazyClearOnAdd = map.lazyClearOnAdd ∧ new.good = true := by
  rw [maxFillOf] at hroom
  obtain ⟨hempty, hnone⟩ := @filled_empty K V form
    (map.newSlots form (map.slots * 4 / 3 + 1)) fun _ _ => hzero
  have hstart : Reprobed form map (map.newSlots form (map.slots * 4 / 3 + 1))
      (map.slots * 4 / 3 + 1) 0 ∅ :=
    ⟨⟨rfl, rfl, rfl, rfl, hgood⟩, hempty, fun q x => by simp [lookup_empty]⟩
  obtain ⟨new, m', hfold, ⟨hnslots, hnfill, hnmax, hnlazy, hngood⟩, hfilled, hmembers⟩ :=
    h.reprobed hsize (by omega) hstart map.slots le_rfl
  obtain rfl : m' = m := by
    refine ext_lookup fun q => Option.ext fun x => ?_
    rw [hmembers, h.lookup_iff hsize]
    constructor
    · rintro ⟨j, -, hj⟩
      exact ⟨j, hj⟩
    · rintro ⟨j, hj, hrest⟩
      exact ⟨j, (mem_members.mp hj).1, hj, hrest⟩
  have hcount : ((List.range map.slots).filter fun j => !form.isKeyNil (map.keys j)).length =
      map.fill := hfill.symm
  have hmaxFill : maxFillOf new.slots > map.fill := by
    rw [maxFillOf]
    omega
  refine ⟨{ new with fill := map.fill, maxFill := maxFillOf new.slots }, ?_,
    ⟨hfilled.holds, hfilled.reached⟩, rfl,
    by simp only; omega, rfl, hmaxFill.le, hnlazy, hngood⟩
  rw [growProbeMap, rehashOldMap, hfold]
  simp [hngood, hcount, hmaxFill]

end Growing

/-! ## Calls -/

section Calls

variable {K V : Type} {form : ProbeForm K} {map : ProbeMap K V} {a : K} {v : V}
  {m : AbstractMap form.mapForm (Option V)}

/-- The map and the abstract map belong together. -/
structure Stands (form : ProbeForm K) (map : ProbeMap K V)
    (m : AbstractMap form.mapForm (Option V)) : Prop where
  slots : 7 ≤ map.slots
  maxFill : map.maxFill = ProbeMap.maxFillOf map.slots
  le : map.fill ≤ map.maxFill
  good : map.good = true
  /-- The keys are still to be cleared, or the slots in use hold the members. -/
  keys : map.lazyClearOnAdd = true ∧ map.fill = 0 ∧ m = ∅ ∨
    map.lazyClearOnAdd = false ∧ map.fill = (map.members form).length ∧ Filled form map m

theorem Stands.room (h : Stands form map m) : map.fill < map.slots := by
  have hle := h.le
  have hslots := h.slots
  rw [h.maxFill, maxFillOf] at hle
  omega

theorem Stands.card (h : Stands form map m) : m.keys.card = map.fill := by
  rcases h.keys with ⟨-, hfill, rfl⟩ | ⟨-, hfill, hfilled⟩
  · rw [hfill]
    rfl
  · rw [hfilled.card, hfill]

/-- After the lazy initialization, when it is due, the keys are cleared. -/
theorem Stands.lazyInit (h : Stands form map m) :
    Stands form (map.lazyInit form) m ∧ (map.lazyInit form).lazyClearOnAdd = false ∧
      (map.lazyInit form).fill = map.fill ∧ (map.lazyInit form).maxFill = map.maxFill := by
  rcases h.keys with ⟨hlazy, hfill, rfl⟩ | ⟨hlazy, hfill, hfilled⟩
  · have hinit : map.lazyInit form = { map with
        keys := fun _ => if form.zeroIsClearKey then form.zeroKey else form.clearKey
        lazyClearOnAdd := false } := by
      rw [ProbeMap.lazyInit, if_pos ⟨hlazy, hfill⟩]
    have hnil : ∀ i < (map.lazyInit form).slots,
        form.isKeyNil ((map.lazyInit form).keys i) = true := fun i _ => by
      rw [hinit]
      split_ifs with hzero
      · exact form.zero_nil hzero
      · exact form.clear_nil
    obtain ⟨hempty, hnone⟩ := filled_empty hnil
    rw [hinit] at hempty hnone ⊢
    exact ⟨⟨h.slots, h.maxFill, h.le, h.good, .inr ⟨rfl, by rw [hnone]; exact hfill, hempty⟩⟩,
      rfl, rfl, rfl⟩
  · have hinit : map.lazyInit form = map := by
      rw [ProbeMap.lazyInit, if_neg (by simp [hlazy])]
    rw [hinit]
    exact ⟨h, hlazy, rfl, rfl⟩

/-- The growth of a map that puts a key is harmless: there are no values, and zero bytes are
nil; or the map does not grow. -/
def GrowsSafely (form : ProbeForm K) (map : ProbeMap K V) (a : K) : Prop :=
  form.valSize = 0 ∧ form.isKeyNil form.zeroKey = true ∨ map.fill < map.maxFill ∨
    ∃ i < map.slots, form.mapTest (map.keys i) a = .hit

/-- `MapAt` finds what is in the abstract map. -/
theorem Stands.mapAt (h : Stands form map m) (ha : form.isKeyNil a = false) :
    Stands form (map.mapAt form a).1 m ∧ (map.mapAt form a).2 = m.lookup (form.mapForm.key a) := by
  obtain ⟨hinit, hlazy, -, -⟩ := h.lazyInit
  rw [ProbeMap.mapAt]
  generalize map.lazyInit form = map at hinit hlazy
  obtain ⟨hlazy', -⟩ | ⟨-, hfill, hfilled⟩ := hinit.keys
  · rw [hlazy] at hlazy'
    cases hlazy'
  · have hsame : { map with good := map.good && !false } = map := by simp
    rcases hfilled.find (hfill ▸ hinit.room) ha with ⟨i, hi, hkey, hfind⟩ | ⟨hnew, i, -, -, -, hfind⟩
    · simp only [hfind, hsame]
      refine ⟨hinit, ?_⟩
      rw [← hkey, hfilled.holds.lookup i hi]
      rfl
    · simp only [hfind, hsame]
      refine ⟨hinit, ?_⟩
      rw [lookup_eq_none.mpr hnew]
      rfl

/-- The arrays after a key and a value are put into a slot. -/
def ProbeMap.written (form : ProbeForm K) (map : ProbeMap K V) (a : K) (v : V) (i : ℕ) :
    ProbeMap K V :=
  { map with
    keys := Function.update map.keys i a
    vals := if form.valSize ≠ 0 then Function.update map.vals i v else map.vals }

/-- `put_probe_kv` writes the slot and grows the map that is too full. -/
theorem putProbeKv_eq [Inhabited V] (map : ProbeMap K V) (a : K) (v : V) (i : ℕ) :
    map.putProbeKv form a v i =
      if map.fill > map.maxFill then (map.written form a v i).growProbeMap form
      else some (map.written form a v i) := by
  rw [putProbeKv, written]
  split_ifs <;> rfl

section

variable [Inhabited V] {i : ℕ} (hgood : (map.lazyInit form).good = true)

include hgood

/-- `MapAtPut` of a key that is there writes its slot. -/
theorem mapAtPut_of_hit
    (hfind : (map.lazyInit form).findKeyPos form a (form.mapHash a) = (.hit, i, false)) :
    map.mapAtPut form a v = ((map.lazyInit form).putProbeKv form a v i).map fun new =>
      (new, some ((map.lazyInit form).getProbeKv form i)) := by
  have hsame : { map.lazyInit form with good := !false } = map.lazyInit form := by
    rw [Bool.not_false, ← hgood]
  simp only [mapAtPut, hgood, if_true, hfind, hsame]
  rfl

/-- `MapAtPut` of a key that is not there writes a void slot. -/
theorem mapAtPut_of_void
    (hfind : (map.lazyInit form).findKeyPos form a (form.mapHash a) = (.void, i, false)) :
    map.mapAtPut form a v =
      (({ map.lazyInit form with fill := (map.lazyInit form).fill + 1 }).putProbeKv form a v i).map
        fun new => (new, none) := by
  have hsame : ({ map.lazyInit form with
      fill := (map.lazyInit form).fill + 1, good := !false } : ProbeMap K V) =
      { map.lazyInit form with fill := (map.lazyInit form).fill + 1 } := by
    rw [Bool.not_false, ← hgood]
  simp only [mapAtPut, hgood, if_true, hfind, reduceCtorEq, if_false, hsame]
  rfl

end

/-- `MapAtPut` inserts, when the map grows safely. -/
theorem Stands.mapAtPut [Inhabited V] (h : Stands form map m) (ha : form.isKeyNil a = false)
    (hsafe : GrowsSafely form (map.lazyInit form) a) (v : V) :
    ∃ map', map.mapAtPut form a v = some (map', m.lookup (form.mapForm.key a)) ∧
      Stands form map' (m.insert (form.mapForm.key a) (a, form.stored v)) := by
  obtain ⟨hinit, hlazy, -, -⟩ := h.lazyInit
  have hhit := @mapAtPut_of_hit K V form map a v _
  have hput := @mapAtPut_of_void K V form map a v _
  generalize map.lazyInit form = map at hinit hlazy hsafe hhit hput
  have hle := hinit.le
  have hmaxFill := hinit.maxFill
  obtain ⟨hlazy', -⟩ | ⟨-, hfill, hfilled⟩ := hinit.keys
  · rw [hlazy] at hlazy'
    cases hlazy'
  rcases hfilled.find (hfill ▸ hinit.room) ha with
    ⟨i, hi, hkey, hfind⟩ | ⟨hnew, i, hi, hnil, hreached, hfind⟩
  · -- the key is there: its slot is written again, and the map is as full as before
    have hlookup : m.lookup (form.mapForm.key a) = some (map.getProbeKv form i) := by
      rw [← hkey, hfilled.holds.lookup i hi]
      rfl
    obtain ⟨hfilled', hcount⟩ := @Filled.replace K V form map a v i m (map.written form a v i)
      hfilled rfl rfl (stored_update map.vals i v) ha hi hkey
    refine ⟨map.written form a v i, ?_, hinit.slots, hmaxFill, hle, hinit.good,
      .inr ⟨hlazy, hfill.trans hcount.symm, hfilled'⟩⟩
    rw [hhit hinit.good hfind, putProbeKv_eq, if_neg (not_lt.mpr hle), hlookup]
    rfl
  · have hlookup : m.lookup (form.mapForm.key a) = none := lookup_eq_none.mpr hnew
    obtain ⟨hfilled', hcount⟩ := @Filled.insert K V form map a v i m
      (({ map with fill := map.fill + 1 } : ProbeMap K V).written form a v i) hfilled rfl rfl
      (stored_update map.vals i v) ha hi hnil hnew hreached
    have hfill' : map.fill + 1 = (members form
        (({ map with fill := map.fill + 1 } : ProbeMap K V).written form a v i)).length := by
      rw [hcount, ← hfill]
    rw [hput hinit.good hfind, putProbeKv_eq, hlookup]
    cases lt_or_ge map.fill map.maxFill with
    | inl hlt =>
      rw [if_neg (not_lt.mpr hlt)]
      exact ⟨_, rfl, hinit.slots, hmaxFill, hlt, hinit.good,
        .inr ⟨hlazy, hfill', hfilled'⟩⟩
    | inr hge =>
      -- the map was full, so this key makes it grow
      rcases hsafe with ⟨hsize, hzero⟩ | hlt | ⟨j, hj, hhit⟩
      · obtain ⟨new, hgrow, hfilled'', hnfill, hnslots, hnmax, hnle, hnlazy, hngood⟩ :=
          hfilled'.grow hsize hzero hinit.good hfill' hinit.slots
            (succ_le_succ (hmaxFill ▸ hle))
        have hnewfill : new.fill = (new.members form).length := by
          rw [hnfill, ← hfilled''.card, hfilled'.card, ← hfill']
          rfl
        rw [if_pos (lt_succ_of_le hge), hgrow]
        exact ⟨new, rfl, hnslots, hnmax, hnle, hngood,
          .inr ⟨hnlazy.trans hlazy, hnewfill, hfilled''⟩⟩
      · exact absurd hlt (not_lt.mpr hge)
      · refine absurd ?_ hnew
        have hjnil : form.isKeyNil (map.keys j) = false := by
          rw [← Bool.not_eq_true, ← form.test_void_iff ha, hhit]
          simp
        rw [← (key_eq_iff hjnil ha).mpr hhit]
        exact mem_of_lookup_eq_some
          (hfilled.holds.lookup j (mem_members.mpr ⟨hj, hjnil⟩))

/-- `MapCutAll` cuts all, when the keys are cleared or there are none. -/
theorem Stands.mapCutAll (h : Stands form map m)
    (hsafe : form.zeroIsClearKey = false ∨ map.fill = 0) :
    (map.mapCutAll form).2 = m.keys.card ∧
      Stands form (map.mapCutAll form).1 (∅ : AbstractMap form.mapForm (Option V)) := by
  refine ⟨h.card.symm, h.slots, h.maxFill, zero_le _, h.good, ?_⟩
  rcases h.keys with ⟨hlazy, -⟩ | ⟨hlazy, hfill, -⟩
  · exact .inl ⟨hlazy, rfl, rfl⟩
  · have hnil : ∀ i < (map.mapCutAll form).1.slots,
        form.isKeyNil ((map.mapCutAll form).1.keys i) = true := fun i hi => by
      show form.isKeyNil ((if !form.zeroIsClearKey then fun _ => form.clearKey else map.keys) i) = _
      split_ifs with hzero
      · exact form.clear_nil
      · rw [Bool.not_eq_true, Bool.not_eq_false'] at hzero
        rw [hzero] at hsafe
        obtain hfalse | hnone := hsafe
        · cases hfalse
        · rw [hfill, length_eq_zero_iff] at hnone
          rw [← Bool.not_eq_false]
          intro hused
          have hmem : i ∈ map.members form := mem_members.mpr ⟨hi, hused⟩
          rw [hnone] at hmem
          cases hmem
    obtain ⟨hempty, hnone⟩ := filled_empty hnil
    exact .inr ⟨hlazy, by rw [hnone]; rfl, hempty⟩

theorem stands_init [Inhabited V] (form : ProbeForm K) (inSlots : ℕ) :
    Stands form (init form inSlots : ProbeMap K V) ∅ := by
  have hslots : 7 ≤ (init form inSlots : ProbeMap K V).slots := by
    show 7 ≤ if inSlots < 7 then 7 else min inSlots (128 * 1024)
    split_ifs <;> omega
  refine ⟨hslots, rfl, zero_le _, rfl, ?_⟩
  cases hzero : form.zeroIsClearKey with
  | false => exact .inl ⟨by simp [init, hzero], rfl, rfl⟩
  | true =>
    obtain ⟨hempty, hnone⟩ := @filled_empty K V form (init form inSlots) fun _ _ =>
      form.zero_nil hzero
    exact .inr ⟨by simp [init, hzero], by rw [hnone]; rfl, hempty⟩

end Calls

/-! ## Runs -/

section Runs

variable {K V : Type} {form : ProbeForm K} {map : ProbeMap K V}
  {m : AbstractMap form.mapForm (Option V)}

def ProbeOp.abstract (form : ProbeForm K) : ProbeOp form.AppKey V → MapOp K (Option V)
  | .mapAtPut inAppKey inAppVal => .put inAppKey.1 (form.stored inAppVal)
  | .mapAt inAppKey => .get inAppKey.1
  | .mapCutAll => .cutAll

/-- A call on a finite partial map. -/
def probeSpecStep (form : ProbeForm K) :
    Machine.Step (AbstractMap form.mapForm (Option V)) (ProbeOp form.AppKey V)
      (Option (MapReply K (Option V))) :=
  fun m op => mapSpecStep form.mapForm m (op.abstract form)

/-- No error is noted, the fill is the number of members, and once the keys are cleared some
slot is void, so that no walk goes all the way around. -/
def RefinesProbe (form : ProbeForm K) :
    Option (ProbeMap K V) → AbstractMap form.mapForm (Option V) → Prop
  | none, _ => False
  | some map, m => map.good = true ∧ map.fill = m.keys.card ∧
      (∃ i < map.slots, form.isKeyNil ((map.lazyInit form).keys i) = true) ∧
      ∀ a : form.AppKey, ((map.lazyInit form).findKeyPos form a.1 (form.mapHash a.1)).2.2 = false

/-- The call does none of the three things that go wrong. -/
def CallsSafely (form : ProbeForm K) (map : ProbeMap K V) : ProbeOp form.AppKey V → Prop
  | .mapAtPut inAppKey _ => GrowsSafely form (map.lazyInit form) inAppKey.1
  | .mapAt _ => True
  | .mapCutAll => form.zeroIsClearKey = false ∨ map.fill = 0

theorem lazyInit_slots : (map.lazyInit form).slots = map.slots := by
  rw [lazyInit]
  split_ifs <;> rfl

/-- A map that stands for the abstract one refines it. -/
theorem Stands.refines (h : Stands form map m) : RefinesProbe form (some map) m := by
  obtain ⟨hinit, hlazy, -, -⟩ := h.lazyInit
  refine ⟨h.good, h.card.symm, ?_⟩
  rw [← @lazyInit_slots K V form]
  obtain ⟨hlazy', -⟩ | ⟨-, hfill, hfilled⟩ := hinit.keys
  · rw [hlazy] at hlazy'
    cases hlazy'
  · have hroom := hfill ▸ hinit.room
    refine ⟨exists_void hroom, fun a => ?_⟩
    rcases hfilled.find hroom a.2 with ⟨i, -, -, hfind⟩ | ⟨-, i, -, -, -, hfind⟩
    · rw [hfind]
    · rw [hfind]

variable [Inhabited V]

theorem Stands.call (h : Stands form map m) {op : ProbeOp form.AppKey V}
    (hsafe : CallsSafely form map op) :
    ∃ map' reply, map.call form op = some (map', reply) ∧
      (probeSpecStep form m op).2 = some reply ∧ Stands form map' (probeSpecStep form m op).1 := by
  cases op with
  | mapAtPut a v =>
    obtain ⟨map', hput, h'⟩ := h.mapAtPut a.2 hsafe v
    exact ⟨map', _, by rw [ProbeMap.call, hput]; rfl, rfl, h'⟩
  | mapAt a =>
    obtain ⟨h', hfound⟩ := h.mapAt a.2
    exact ⟨_, _, by rw [ProbeMap.call, hfound], rfl, h'⟩
  | mapCutAll =>
    obtain ⟨hcount, h'⟩ := h.mapCutAll hsafe
    exact ⟨_, _, by rw [ProbeMap.call, hcount], rfl, h'⟩

/-- Without values, when zero bytes are nil and `MapCutAll` clears the keys, all calls are
safe. -/
theorem Stands.along (h : Stands form map m) (hsize : form.valSize = 0)
    (hzero : form.isKeyNil form.zeroKey = true) (hclear : form.zeroIsClearKey = false)
    (ops : List (ProbeOp form.AppKey V)) :
    Machine.Along (probeStep form) (Machine.Unstuck (CallsSafely form)) (some map) ops := by
  induction ops generalizing map m with
  | nil => trivial
  | cons op ops ih =>
    have hsafe : CallsSafely form map op := by
      cases op with
      | mapAtPut => exact .inl ⟨hsize, hzero⟩
      | mapAt => trivial
      | mapCutAll => exact .inl hclear
    obtain ⟨map', reply, hcall, -, h'⟩ := h.call hsafe
    refine ⟨hsafe, ?_⟩
    rw [probeStep, Machine.ofPartial, hcall]
    exact ih h'

/-- In a run of safe calls all replies are those of the finite partial map, and in every state
no error is noted, the fill is its cardinality and some slot stays void. -/
theorem probeMap_refines (form : ProbeForm K) (inSlots : ℕ) (ops : List (ProbeOp form.AppKey V))
    (hsafe : Machine.Along (probeStep form) (Machine.Unstuck (CallsSafely form))
      (some (ProbeMap.init form inSlots)) ops) :
    Machine.outputs (probeStep form) (some (ProbeMap.init form inSlots)) ops =
        Machine.outputs (probeSpecStep form) ∅ ops ∧
      ∀ before, before <+: ops → RefinesProbe form
        (Machine.exec (probeStep form) (some (ProbeMap.init form inSlots)) before)
        (Machine.exec (probeSpecStep form) ∅ before) := by
  have hrun : ∀ before, before <+: ops → _ := fun before hbefore =>
    Machine.simulation (m := probeStep form) (n := probeSpecStep form)
      (R := fun s m => ∃ map, s = some map ∧ Stands form map m) (fun s m op hR hop => by
        obtain ⟨map, rfl, h⟩ := hR
        obtain ⟨map', reply, hcall, hreply, h'⟩ := h.call hop
        simp only [probeStep, Machine.ofPartial, hcall]
        exact ⟨hreply.symm, map', rfl, h'⟩)
      ⟨_, rfl, stands_init form inSlots⟩ (hsafe.restrict hbefore)
  refine ⟨(hrun ops prefix_rfl).1, fun before hbefore => ?_⟩
  obtain ⟨-, map, hexec, h⟩ := hrun before hbefore
  rw [hexec]
  exact h.refines

end Runs

/-! ## Keys that are words -/

/-- A map whose keys are words, of which zero is nil. -/
def wordProbeForm (zeroIsClearKey : Bool) (valSize : ℕ) : ProbeForm UInt32 where
  mapTest m a := if m = 0 then .void else if m = a then .hit else .miss
  mapHash := id
  isKeyNil := (· == 0)
  clearKey := 0
  zeroKey := 0
  zeroIsClearKey := zeroIsClearKey
  valSize := valSize
  test_void_iff {m a} ha := by
    by_cases hm : m = 0 <;> simp [hm]
    split_ifs <;> simp
  equivalence := by
    have hiff : ∀ a b : {k : UInt32 // (k == 0) = false},
        ((if a.1 = 0 then MorkTest.void else if a.1 = b.1 then .hit else .miss) == .hit) = true ↔
          a.1 = b.1 := fun a b => by
      have ha : a.1 ≠ 0 := by simpa using a.2
      rw [if_neg ha]
      split_ifs with hab <;> simp [hab]
    exact ⟨fun a => (hiff a a).mpr rfl, fun {a b} h => (hiff b a).mpr ((hiff a b).mp h).symm,
      fun {a b c} h h' => (hiff a c).mpr (((hiff a b).mp h).trans ((hiff b c).mp h'))⟩
  hash_eq {m a} hm ha h := by
    have hm' : m ≠ 0 := by simpa using hm
    rw [if_neg hm'] at h
    split_ifs at h with hma
    exact hma
  clear_nil := rfl
  zero_nil _ := rfl

/-- Six keys are put, of which the last makes the map grow, and the first is looked up. -/
def sixKeys (zeroIsClearKey : Bool) (valSize : ℕ) :
    List (ProbeOp (wordProbeForm zeroIsClearKey valSize).AppKey ℕ) :=
  [.mapAtPut ⟨14, rfl⟩ 1, .mapAtPut ⟨1, rfl⟩ 2, .mapAtPut ⟨2, rfl⟩ 3, .mapAtPut ⟨3, rfl⟩ 4,
    .mapAtPut ⟨5, rfl⟩ 5, .mapAtPut ⟨6, rfl⟩ 6, .mapAt ⟨14, rfl⟩]

/-- Without values, the map of six keys grows and finds the first. -/
theorem probeMap_refines_sixKeys :
    Machine.outputs (probeStep (wordProbeForm false 0))
        (some (ProbeMap.init (wordProbeForm false 0) 7)) (sixKeys false 0) =
      Machine.outputs (probeSpecStep (wordProbeForm false 0)) ∅ (sixKeys false 0) :=
  (probeMap_refines (wordProbeForm false 0) 7 (sixKeys false 0)
    ((stands_init _ 7).along rfl rfl rfl _)).1

/-- With values, the first key has lost its value after the growth.  When zero is the clear key,
a key is still found after `MapCutAll`. -/
theorem grow_loses_value :
    Machine.outputs (probeStep (wordProbeForm false 4))
          (some (ProbeMap.init (wordProbeForm false 4) 7)) (sixKeys false 4) =
        List.replicate 6 (some (.assoc none)) ++ [some (.assoc (some (14, some (0 : ℕ))))] ∧
      Machine.outputs (probeStep (wordProbeForm false 4))
          (some (ProbeMap.init (wordProbeForm false 4) 7)) (sixKeys false 4) ≠
        Machine.outputs (probeSpecStep (wordProbeForm false 4)) ∅ (sixKeys false 4) ∧
      Machine.outputs (probeStep (wordProbeForm true 4))
          (some (ProbeMap.init (wordProbeForm true 4) 7))
          [.mapAtPut ⟨1, rfl⟩ 10, .mapCutAll, .mapAt ⟨1, rfl⟩] ≠
        Machine.outputs (probeSpecStep (wordProbeForm true 4)) ∅
          [.mapAtPut ⟨1, rfl⟩ (10 : ℕ), .mapCutAll, .mapAt ⟨1, rfl⟩] := by
  decide

end CommCentral.Mork
