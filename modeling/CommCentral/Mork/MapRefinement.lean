import CommCentral.Mork.MapLayout
import Mathlib.Data.Finmap

/-!
# A map refines a finite partial map

The abstract map takes a key, up to equality, to the key that was put last and
its value.  `Represents` relates it to the arrays and lists of the code: the
assocs in use hold the members, each in the bucket of its key.

Every call keeps the relation and answers as the abstract map does, but for
`CutAll` on a map with members: it links all assocs into the free list and
leaves the buckets as they are.  So a map is right exactly as long as `CutAll`
is called on empty maps only (`map_refines_iff`).
-/

namespace CommCentral.Mork

open Function List Map Finmap

open Links (Chain behind)

/-! ## Contents -/

section Contents

variable {K V : Type} {form : MapForm K}

/-- Keys are taken up to equality. -/
def MapForm.setoid (form : MapForm K) : Setoid K :=
  ⟨fun a b => form.equal a b = true, form.equivalence⟩

/-- A key up to equality. -/
abbrev MapForm.Key (form : MapForm K) : Type := Quotient form.setoid

instance : DecidableEq form.Key :=
  @Quotient.decidableEq K form.setoid fun a b => inferInstanceAs (Decidable (form.equal a b = true))

def MapForm.key (form : MapForm K) (k : K) : form.Key := Quotient.mk form.setoid k

theorem MapForm.key_eq_iff {a b : K} : form.key a = form.key b ↔ form.equal a b = true :=
  Quotient.eq

/-- A finite partial map from keys to the key that was put last and its value. -/
abbrev AbstractMap (form : MapForm K) (V : Type) : Type := Finmap fun _ : form.Key => K × V

/-- The assocs hold the members of the abstract map, each in one assoc. -/
structure Holds (form : MapForm K) (keys : ℕ → K) (vals : ℕ → V) (members : List ℕ)
    (m : AbstractMap form V) : Prop where
  lookup : ∀ i ∈ members, m.lookup (form.key (keys i)) = some (keys i, vals i)
  mem : ∀ q ∈ m, ∃ i ∈ members, form.key (keys i) = q
  distinct : ∀ i ∈ members, ∀ j ∈ members, form.key (keys i) = form.key (keys j) → i = j

namespace Holds

variable {keys keys' : ℕ → K} {vals vals' : ℕ → V} {members members' : List ℕ}
  {m : AbstractMap form V} {i : ℕ} {k : K} {v : V}

section

variable (h : Holds form keys vals members m)

include h

/-- Only the members and what their assocs hold matter. -/
theorem congr (hmem : ∀ i, i ∈ members' ↔ i ∈ members) (hkeys : ∀ i ∈ members, keys' i = keys i)
    (hvals : ∀ i ∈ members, vals' i = vals i) : Holds form keys' vals' members' m := by
  constructor
  · intro i hi
    have hi' := (hmem i).mp hi
    rw [hkeys i hi', hvals i hi']
    exact h.lookup i hi'
  · intro q hq
    obtain ⟨i, hi, hiq⟩ := h.mem q hq
    exact ⟨i, (hmem i).mpr hi, by rw [hkeys i hi, hiq]⟩
  · intro i hi j hj hij
    have hi' := (hmem i).mp hi
    have hj' := (hmem j).mp hj
    rw [hkeys i hi', hkeys j hj'] at hij
    exact h.distinct i hi' j hj' hij

theorem card (hnodup : members.Nodup) : m.keys.card = members.length := by
  have hkeys : m.keys = members.toFinset.image fun i => form.key (keys i) := by
    ext q
    rw [Finset.mem_image]
    constructor
    · intro hq
      obtain ⟨i, hi, hiq⟩ := h.mem q hq
      exact ⟨i, mem_toFinset.mpr hi, hiq⟩
    · rintro ⟨i, hi, rfl⟩
      exact mem_of_lookup_eq_some (h.lookup i (mem_toFinset.mp hi))
  rw [hkeys, Finset.card_image_of_injOn, toFinset_card_of_nodup hnodup]
  intro i hi j hj hij
  exact h.distinct i (by simpa using hi) j (by simpa using hj) hij

theorem replace (hi : i ∈ members) (hk : form.key (keys i) = form.key k) :
    Holds form (update keys i k) (update vals i v) members
      (m.insert (form.key k) (k, v)) := by
  have hkey : ∀ j, form.key (update keys i k j) = form.key (keys j) := fun j => by
    by_cases hj : j = i
    · rw [hj, update_self, hk]
    · rw [update_of_ne hj]
  constructor
  · intro j hj
    by_cases hji : j = i
    · subst hji
      rw [update_self, update_self, lookup_insert]
    · have hne : form.key (keys j) ≠ form.key k := fun hjk =>
        hji (h.distinct j hj i hi (hjk.trans hk.symm))
      rw [update_of_ne hji, update_of_ne hji, lookup_insert_of_ne _ hne]
      exact h.lookup j hj
  · intro q hq
    rcases (mem_insert).mp hq with rfl | hq
    · exact ⟨i, hi, by rw [hkey, hk]⟩
    · obtain ⟨j, hj, hjq⟩ := h.mem q hq
      exact ⟨j, hj, by rw [hkey, hjq]⟩
  · intro a ha b hb hab
    rw [hkey, hkey] at hab
    exact h.distinct a ha b hb hab

theorem insert (hi : i ∉ members) (hk : form.key k ∉ m) :
    Holds form (update keys i k) (update vals i v) (i :: members)
      (m.insert (form.key k) (k, v)) := by
  have hne : ∀ j ∈ members, j ≠ i := fun j hj hji => hi (hji ▸ hj)
  have hkey : ∀ j ∈ members, form.key (keys j) ≠ form.key k := fun j hj hjk =>
    hk (hjk ▸ mem_of_lookup_eq_some (h.lookup j hj))
  constructor
  · intro j hj
    rcases mem_cons.mp hj with rfl | hj
    · rw [update_self, update_self, lookup_insert]
    · rw [update_of_ne (hne j hj), update_of_ne (hne j hj),
        lookup_insert_of_ne _ (hkey j hj)]
      exact h.lookup j hj
  · intro q hq
    rcases (mem_insert).mp hq with rfl | hq
    · exact ⟨i, mem_cons_self, by rw [update_self]⟩
    · obtain ⟨j, hj, hjq⟩ := h.mem q hq
      exact ⟨j, mem_cons_of_mem _ hj, by rw [update_of_ne (hne j hj), hjq]⟩
  · intro a ha b hb hab
    rcases mem_cons.mp ha with rfl | ha' <;> rcases mem_cons.mp hb with rfl | hb'
    · rfl
    · rw [update_self, update_of_ne (hne b hb')] at hab
      exact absurd hab.symm (hkey b hb')
    · rw [update_self, update_of_ne (hne a ha')] at hab
      exact absurd hab (hkey a ha')
    · rw [update_of_ne (hne a ha'), update_of_ne (hne b hb')] at hab
      exact h.distinct a ha' b hb' hab

end

theorem erase (h : Holds form keys vals (i :: members) m) (hi : i ∉ members)
    (hk : form.key (keys i) = form.key k) :
    Holds form keys vals members (m.erase (form.key k)) := by
  have hne : ∀ j ∈ members, form.key (keys j) ≠ form.key k := fun j hj hjk => by
    obtain rfl := h.distinct j (mem_cons_of_mem _ hj) i mem_cons_self
      (hjk.trans hk.symm)
    exact hi hj
  constructor
  · intro j hj
    rw [lookup_erase_ne (hne j hj)]
    exact h.lookup j (mem_cons_of_mem _ hj)
  · intro q hq
    obtain ⟨hqk, hqm⟩ := mem_erase.mp hq
    obtain ⟨j, hj, hjq⟩ := h.mem q hqm
    rcases mem_cons.mp hj with rfl | hj
    · exact absurd (hjq.symm.trans hk) hqk
    · exact ⟨j, hj, hjq⟩
  · intro a ha b hb hab
    exact h.distinct a (mem_cons_of_mem _ ha) b (mem_cons_of_mem _ hb) hab

end Holds

end Contents

/-! ## Calls -/

section Calls

variable {K V : Type} {form : MapForm K} {map : Map K V} {m : AbstractMap form V}
  {chain : ℕ → List ℕ} {free : List ℕ} {k : K} {v : V}

/-- The map, its lists and the abstract map belong together. -/
structure Represents (form : MapForm K) (map : Map K V) (chain : ℕ → List ℕ) (free : List ℕ)
    (m : AbstractMap form V) : Prop where
  slots_pos : 0 < map.slots
  layout : Layout map.slots map.links [] chain free
  hashed : ∀ b < map.slots, ∀ i ∈ chain b, map.bucketOf form (map.keys i) = .bucket b
  fill : map.fill = (used map.slots chain).length
  holds : Holds form map.keys map.vals (used map.slots chain) m

/-- The loop of `find` stops at the first assoc with the key, or at the end. -/
theorem findFrom_eq (form : MapForm K) (k : K) {ref : LinkRef} {l : List ℕ} (h : Chain .next map.links ref l) {fuel : ℕ}
    (hfuel : l.length < fuel) :
    ((∀ i ∈ l, form.key (map.keys i) ≠ form.key k) ∧ map.findFrom form k fuel ref = some none) ∨
      ∃ l₁ i l₂, l = l₁ ++ i :: l₂ ∧ form.key (map.keys i) = form.key k ∧
        map.findFrom form k fuel ref = some (some (behind .next ref l₁)) := by
  induction l generalizing ref fuel with
  | nil =>
    obtain ⟨fuel, rfl⟩ := Nat.exists_eq_add_of_lt hfuel
    refine Or.inl ⟨by simp, ?_⟩
    rw [findFrom, show map.links ref = none from h]
  | cons i l ih =>
    obtain ⟨fuel, rfl⟩ : ∃ n, fuel = n + 1 := ⟨fuel - 1, by simp at hfuel; omega⟩
    obtain ⟨hi, hl⟩ := h
    rw [findFrom, hi]
    by_cases hk : form.equal (map.keys i) k = true
    · exact Or.inr ⟨[], i, l, rfl, MapForm.key_eq_iff.mpr hk, by simp [hk, behind]⟩
    · have hne : form.key (map.keys i) ≠ form.key k := fun hik => hk (MapForm.key_eq_iff.mp hik)
      simp only [hk]
      rcases ih hl (by simpa using hfuel) with ⟨hall, hfind⟩ | ⟨l₁, j, l₂, rfl, hj, hfind⟩
      · exact Or.inl ⟨by simpa [hne] using hall, hfind⟩
      · exact Or.inr ⟨i :: l₁, j, l₂, rfl, hj, hfind⟩

/-- `find` finds the keys of the abstract map. -/
theorem Represents.find (h : Represents form map chain free m) (k : K) :
    (m.lookup (form.key k) = none ∧ map.find form k = some none) ∨
      ∃ b l i r, b < map.slots ∧ chain b = l ++ i :: r ∧ form.key (map.keys i) = form.key k ∧
        m.lookup (form.key k) = some (map.getAssoc i) ∧
        map.find form k = some (some (behind .next (.bucket b) l)) ∧
        map.links (behind .next (.bucket b) l) = some i := by
  have hb : (form.hash k).toNat % map.slots < map.slots := Nat.mod_lt _ h.slots_pos
  have hchain := h.layout.bucket _ hb
  have hlen := Nat.lt_succ_of_le (h.layout.length_le hb)
  rcases findFrom_eq form k hchain hlen with ⟨hall, hfind⟩ | ⟨l, i, r, hl, hi, hfind⟩
  · refine Or.inl ⟨?_, hfind⟩
    rw [lookup_eq_none]
    intro hk
    obtain ⟨i, hi, hik⟩ := h.holds.mem _ hk
    obtain ⟨b, hb', hib⟩ := mem_used.mp hi
    have hbucket := h.hashed b hb' i hib
    rw [bucketOf, form.hash_eq (MapForm.key_eq_iff.mp hik)] at hbucket
    obtain rfl := LinkRef.bucket.inj hbucket
    exact hall i hib hik
  · refine Or.inr ⟨_, l, i, r, hb, hl, hi, ?_, hfind, ?_⟩
    · rw [← hi]
      exact h.holds.lookup i (mem_used.mpr ⟨_, hb, by simp [hl]⟩)
    · rw [hl] at hchain
      exact hchain.drop.1

/-- `Get` is the lookup. -/
theorem Represents.get (h : Represents form map chain free m) (k : K) :
    map.get form k = some (m.lookup (form.key k)) := by
  rcases h.find k with ⟨hk, hfind⟩ | ⟨b, l, i, r, -, -, -, hk, hfind, hi⟩
  · rw [Map.get, hfind, hk]
    rfl
  · rw [Map.get, hfind, hk]
    simp [hi]

/-- `Put` of a key that is there replaces what was put before. -/
theorem Represents.put_found [Inhabited K] [Inhabited V] (h : Represents form map chain free m)
    {b i : ℕ} {l r : List ℕ} (hb : b < map.slots) (hchain : chain b = l ++ i :: r)
    (hk : form.key (map.keys i) = form.key k) :
    Represents form (map.putAssoc k v i) chain free (m.insert (form.key k) (k, v)) := by
  refine ⟨h.slots_pos, h.layout, fun b' hb' j hj => ?_, h.fill, ?_⟩
  · rw [← h.hashed b' hb' j hj]
    by_cases hji : j = i
    · subst hji
      simp only [putAssoc, update_self, bucketOf]
      rw [form.hash_eq (MapForm.key_eq_iff.mp hk)]
    · simp only [putAssoc, update_of_ne hji, bucketOf]
  · exact h.holds.replace (mem_used.mpr ⟨b, hb, by simp [hchain]⟩) hk

/-- `Put` of a key that is not there takes the first free assoc. -/
theorem Represents.put_new {i : ℕ} (h : Represents form map chain (i :: free) m)
    (hk : form.key k ∉ m) (v : V) :
    ∃ chain', Represents form (map.popFreeAssoc.2.addAssoc form k v i) chain' free
      (m.insert (form.key k) (k, v)) := by
  have hb : (form.hash k).toNat % map.slots < map.slots := Nat.mod_lt _ h.slots_pos
  obtain ⟨-, hfresh⟩ := h.layout.pop.not_mem_of_pending
  have hused := used_push (i := i) hb chain
  have hkeys : ∀ b < map.slots, ∀ j ∈ chain b, j ≠ i := fun b hb j hj hji =>
    hfresh b hb (hji ▸ hj)
  rw [popFreeAssoc, h.layout.freeList.1]
  refine ⟨update chain _ (i :: chain _), h.slots_pos, h.layout.pop.push hb,
    fun b hb' j hj => ?_, ?_, ?_⟩
  · simp only [addAssoc, putAssoc, bucketOf, pushAssoc]
    by_cases hbb : b = (form.hash k).toNat % map.slots
    · subst hbb
      rw [update_self] at hj
      rcases mem_cons.mp hj with rfl | hj
      · rw [update_self]
      · rw [update_of_ne (hkeys _ hb' j hj)]
        exact h.hashed _ hb' j hj
    · rw [update_of_ne hbb] at hj
      rw [update_of_ne (hkeys b hb' j hj)]
      exact h.hashed b hb' j hj
  · exact (congrArg (· + 1) h.fill).trans hused.length_eq.symm
  · have hmem : i ∉ used map.slots chain := fun hi => by
      obtain ⟨b, hb', hib⟩ := mem_used.mp hi
      exact hfresh b hb' hib
    exact (h.holds.insert hmem hk).congr (fun j => hused.mem_iff) (fun _ _ => rfl) fun _ _ => rfl

/-- The links of new arrays run through the assocs in order. -/
theorem chain_range' {links : LinkRef → Option ℕ} (n : ℕ) (a : ℕ) {ref : LinkRef}
    (href : links ref = if 0 < n then some a else none)
    (hnext : ∀ i, a ≤ i → i < a + n →
      links (.next i) = if i + 1 < a + n then some (i + 1) else none) :
    Chain .next links ref (range' a n) := by
  induction n generalizing a ref with
  | zero => exact href
  | succ n ih =>
    refine ⟨href, ih (a + 1) ?_ fun i hi hi' => ?_⟩
    · rw [hnext a le_rfl (by omega)]
      simp
    · rw [hnext i (by omega) (by omega)]
      congr 2
      omega

theorem range_double (n : ℕ) : range (n * 2) = range n ++ range' n n := by
  rw [range_eq_range', range_eq_range', mul_two, ← range'_append_1, Nat.zero_add]

/-- The state of the loop of `grow` after some keys. -/
structure Rehashed (form : MapForm K) (map new : Map K V) (n : ℕ) (chain : ℕ → List ℕ) : Prop where
  arrays : new.slots = map.slots * 2 ∧ new.fill = map.fill ∧
    ∀ i < map.slots, new.keys i = map.keys i ∧ new.vals i = map.vals i
  /-- The assocs from there on are still to be pushed. -/
  layout : Layout new.slots new.links (List.range' n (map.slots - n)) chain
    (List.range' map.slots map.slots)
  /-- Those before are in the buckets of their keys. -/
  hashed : ∀ b < new.slots, ∀ i ∈ chain b, new.bucketOf form (new.keys i) = .bucket b

/-- The loop of `grow` pushes one assoc after the other. -/
theorem Map.rehashed [Inhabited K] [Inhabited V] (hpos : 0 < map.slots) (n : ℕ)
    (hn : n ≤ map.slots) :
    ∃ chain, Rehashed form map ((range n).foldl
      (fun new i => new.pushAssoc (new.bucketOf form (new.keys i)) i) map.growArrays) n chain := by
  induction n with
  | zero =>
    refine ⟨fun _ => [], ⟨rfl, rfl, fun i hi => ?_⟩, ⟨?_, fun b hb => rfl, ?_⟩, by simp⟩
    · simp [growArrays, hi]
    · refine chain_range' _ _ ?_ fun i hi hi' => ?_
      · simp [growArrays, hpos]
      · simp [growArrays, newLinks, mul_two]
    · show (_ ++ (_ ++ used (map.slots * 2) _)).Perm (range (map.slots * 2))
      rw [used_nil, append_nil, Nat.sub_zero, range_double, range_eq_range']
  | succ n ih =>
    obtain ⟨chain, harrays, hlayout, hhashed⟩ := ih (by omega)
    rw [range_succ, foldl_append]
    generalize (range n).foldl _ _ = new at *
    have hslots : 0 < new.slots := by omega
    have hb : (form.hash (new.keys n)).toNat % new.slots < new.slots := Nat.mod_lt _ hslots
    have hpending : range' n (map.slots - n) =
        n :: range' (n + 1) (map.slots - (n + 1)) := by
      rw [← range'_succ]
      congr 1
      omega
    rw [hpending] at hlayout
    refine ⟨_, harrays, hlayout.push hb, fun b hb' i hi => ?_⟩
    by_cases hbb : b = (form.hash (new.keys n)).toNat % new.slots
    · subst hbb
      rw [update_self] at hi
      rcases mem_cons.mp hi with rfl | hi
      · rfl
      · exact hhashed _ hb' i hi
    · rw [update_of_ne hbb] at hi
      exact hhashed b hb' i hi

/-- `grow` keeps the members and makes room. -/
theorem Represents.grow [Inhabited K] [Inhabited V] (h : Represents form map chain [] m) :
    ∃ chain' i free', Represents form (map.grow form) chain' (i :: free') m := by
  obtain ⟨chain', ⟨hslots, hfill, hkept⟩, hlayout, hhashed⟩ :
      ∃ chain', Rehashed form map (map.grow form) map.slots chain' :=
    rehashed h.slots_pos map.slots le_rfl
  have hfree : range' map.slots map.slots =
      map.slots :: range' (map.slots + 1) (map.slots - 1) := by
    rw [← range'_succ]
    congr 1
    have := h.slots_pos
    omega
  -- the assocs in use are those of the old arrays
  have hold : (used map.slots chain).Perm (range map.slots) := h.layout.partition
  have hused : (used (map.grow form).slots chain').Perm (range map.slots) := by
    have hnew := hlayout.partition
    rw [Nat.sub_self, hslots, range_double, ← hslots] at hnew
    exact (perm_append_left_iff _).mp (hnew.trans perm_append_comm)
  rw [Nat.sub_self, hfree] at hlayout
  refine ⟨chain', map.slots, range' (map.slots + 1) (map.slots - 1), ?_, hlayout, hhashed,
    ?_, ?_⟩
  · rw [hslots]
    exact Nat.mul_pos h.slots_pos Nat.zero_lt_two
  · rw [hfill, h.fill, hused.length_eq, hold.length_eq]
  · have hmem : ∀ i, i ∈ used (map.grow form).slots chain' ↔ i ∈ used map.slots chain := fun i =>
      (hused.trans hold.symm).mem_iff
    refine h.holds.congr hmem (fun i hi => ?_) fun i hi => ?_
    · exact (hkept i (mem_range.mp (hold.mem_iff.mp hi))).1
    · exact (hkept i (mem_range.mp (hold.mem_iff.mp hi))).2

/-- `Cut` of a key that is there frees its assoc. -/
theorem Represents.cut_found (h : Represents form map chain free m)
    {b i : ℕ} {l r : List ℕ} (hb : b < map.slots) (hchain : chain b = l ++ i :: r)
    (hk : form.key (map.keys i) = form.key k) :
    Represents form (map.removeAssoc (behind .next (.bucket b) l) i)
      (update chain b (l ++ r)) (i :: free) (m.erase (form.key k)) := by
  have hlayout := (h.layout.unlink hb hchain).pushFree
  have hused := used_unlink hb hchain
  have hnodup : (i :: used map.slots (update chain b (l ++ r))).Nodup :=
    hused.nodup_iff.mpr h.layout.nodup_used
  refine ⟨h.slots_pos, hlayout, fun b' hb' j hj => ?_, ?_, ?_⟩
  · refine h.hashed b' hb' j ?_
    by_cases hbb : b' = b
    · subst hbb
      rw [update_self] at hj
      rw [hchain]
      rcases mem_append.mp hj with hj | hj <;> simp [hj]
    · rwa [update_of_ne hbb] at hj
  · show map.fill - 1 = _
    rw [h.fill, ← hused.length_eq]
    rfl
  · refine Holds.erase (i := i) ?_ (nodup_cons.mp hnodup).1 hk
    exact h.holds.congr (fun j => hused.mem_iff) (fun _ _ => rfl) fun _ _ => rfl

end Calls

/-! ## Runs -/

section Runs

variable {K V : Type} {form : MapForm K} {map : Map K V}
  {m : AbstractMap form V} {chain : ℕ → List ℕ} {free : List ℕ}

/-- A call on a finite partial map. -/
def mapSpecStep (form : MapForm K) :
    Machine.Step (AbstractMap form V) (MapOp K V) (Option (MapReply K V))
  | m, .put inKey inVal =>
    (m.insert (form.key inKey) (inKey, inVal), some (.assoc (m.lookup (form.key inKey))))
  | m, .get inKey => (m, some (.assoc (m.lookup (form.key inKey))))
  | m, .cut inKey => (m.erase (form.key inKey), some (.assoc (m.lookup (form.key inKey))))
  | m, .cutAll => (∅, some (.count m.keys.card))

/-- The free list and the chains of the buckets partition the assocs. -/
def Map.Partitioned (map : Map K V) : Prop :=
  ∃ chain free, Layout map.slots map.links [] chain free

/-- The map has the members of the abstract map and well-formed lists. -/
def Refines (form : MapForm K) : Option (Map K V) → AbstractMap form V → Prop
  | none, _ => False
  | some map, m => map.Partitioned ∧ map.fill = m.keys.card ∧
      ∀ k, map.get form k = some (m.lookup (form.key k))

/-- All members are cut one by one before `CutAll`. -/
def CutsAllOfEmpty (form : MapForm K) (m : AbstractMap form V) : MapOp K V → Prop
  | .cutAll => m = ∅
  | _ => True

theorem layout_newLinks {slots : ℕ} {links : LinkRef → Option ℕ} (hpos : 0 < slots)
    (hfree : links .freeList = some 0)
    (hnext : ∀ i, links (.next i) = if i + 1 < slots then some (i + 1) else none)
    (hbucket : ∀ b < slots, links (.bucket b) = none) :
    Layout slots links [] (fun _ => []) (range slots) := by
  refine ⟨?_, hbucket, ?_⟩
  · rw [range_eq_range']
    refine chain_range' _ _ ?_ fun i _ _ => ?_
    · rw [hfree, if_pos hpos]
    · rw [hnext, Nat.zero_add]
  · simp

theorem represents_init [Inhabited K] [Inhabited V] (form : MapForm K) (inSlots : ℕ) :
    Represents form (init inSlots : Map K V) (fun _ => [])
      (range (init inSlots : Map K V).slots) ∅ := by
  have hpos : 0 < (init inSlots : Map K V).slots := by
    simp only [init]
    split <;> omega
  refine ⟨hpos, layout_newLinks hpos rfl (fun i => rfl) (fun b _ => rfl), by simp, ?_, ?_⟩
  · simp [init]
  · constructor <;> simp [notMem_empty]

theorem Represents.refines (h : Represents form map chain free m) : Refines form (some map) m :=
  ⟨⟨chain, free, h.layout⟩, h.fill.trans (h.holds.card h.layout.nodup_used).symm, h.get⟩

/-- `Put` inserts. -/
theorem Represents.put [Inhabited K] [Inhabited V] (h : Represents form map chain free m)
    (k : K) (v : V) :
    ∃ map' chain' free', map.put form k v = some (map', m.lookup (form.key k)) ∧
      Represents form map' chain' free' (m.insert (form.key k) (k, v)) := by
  rcases h.find k with ⟨hk, hfind⟩ | ⟨b, l, i, r, hb, hchain, hik, hk, hfind, hi⟩
  · have hk' : form.key k ∉ m := lookup_eq_none.mp hk
    rw [Map.put, hfind, hk]
    cases free with
    | cons i free =>
      obtain ⟨chain', hnew⟩ := h.put_new hk' v
      refine ⟨_, chain', free, ?_, hnew⟩
      have hpop : map.links .freeList = some i := h.layout.freeList.1
      simp [Map.allocAssoc, Map.popFreeAssoc, hpop, Map.addAssoc]
    | nil =>
      obtain ⟨chain', i, free', hgrow⟩ := h.grow
      obtain ⟨chain'', hnew⟩ := hgrow.put_new hk' v
      refine ⟨_, chain'', free', ?_, hnew⟩
      have hpop : map.links .freeList = none := h.layout.freeList
      have hpop' : (map.grow form).links .freeList = some i := hgrow.layout.freeList.1
      simp [Map.allocAssoc, Map.popFreeAssoc, hpop, hpop', Map.addAssoc]
  · refine ⟨_, chain, free, ?_, h.put_found hb hchain hik⟩
    rw [Map.put, hfind, hk]
    simp [hi]

/-- `Cut` erases. -/
theorem Represents.cut (h : Represents form map chain free m) (k : K) :
    ∃ map' chain' free', map.cut form k = some (map', m.lookup (form.key k)) ∧
      Represents form map' chain' free' (m.erase (form.key k)) := by
  rcases h.find k with ⟨hk, hfind⟩ | ⟨b, l, i, r, hb, hchain, hik, hk, hfind, hi⟩
  · refine ⟨map, chain, free, ?_, ?_⟩
    · rw [Map.cut, hfind, hk]
      rfl
    · have herase : m.erase (form.key k) = m := by
        refine ext_lookup fun q => ?_
        by_cases hq : q = form.key k
        · rw [hq, lookup_erase, hk]
        · rw [lookup_erase_ne hq]
      rwa [herase]
  · refine ⟨_, _, _, ?_, h.cut_found hb hchain hik⟩
    rw [Map.cut, hfind, hk]
    simp [hi]

/-- `CutAll` of an empty map leaves it empty. -/
theorem Represents.cutAll (h : Represents form map chain free (∅ : AbstractMap form V)) :
    map.cutAll.2 = 0 ∧ Represents form map.cutAll.1 (fun _ => []) (range map.slots)
      (∅ : AbstractMap form V) := by
  have hused : used map.slots chain = [] := by
    rw [eq_nil_iff_forall_not_mem]
    intro i hi
    exact notMem_empty (mem_of_lookup_eq_some (h.holds.lookup i hi))
  refine ⟨by rw [Map.cutAll, h.fill, hused, length_nil], h.slots_pos,
    layout_newLinks h.slots_pos rfl (fun _ => rfl) fun b hb => ?_, by simp,
    by simp [Map.cutAll], ?_⟩
  · have hbucket := h.layout.bucket b hb
    rwa [eq_nil_of_used hused hb] at hbucket
  · constructor <;> simp [notMem_empty]

/-- `CutAll` of a map with members leaves them in their buckets. -/
theorem Represents.not_partitioned_cutAll (h : Represents form map chain free m) (hm : m ≠ ∅) :
    ¬ map.cutAll.1.Partitioned := by
  rintro ⟨chain', free', hlayout⟩
  -- all assocs are in the free list, so none is left for the buckets
  have hrange : Chain .next map.cutAll.1.links .freeList (range' 0 map.slots) :=
    chain_range' _ _ (by simp [Map.cutAll, newLinks, h.slots_pos])
      fun i _ _ => by simp [Map.cutAll, newLinks]
  have hfree := hlayout.freeList.unique hrange
  have hlen := hlayout.partition.length_eq
  rw [hfree] at hlen
  simp only [nil_append, length_append, length_range', length_range] at hlen
  have hused : used map.slots chain' = [] := by
    rw [← length_eq_zero_iff]
    exact Nat.add_left_cancel hlen
  -- but the bucket of a member has one
  obtain ⟨q, hq⟩ : ∃ q, q ∈ m := by
    by_contra hnone
    push Not at hnone
    refine hm (ext_lookup fun q => ?_)
    rw [lookup_eq_none.mpr (hnone q), lookup_empty]
  obtain ⟨i, hi, -⟩ := h.holds.mem q hq
  obtain ⟨b, hb, hib⟩ := mem_used.mp hi
  have hempty := hlayout.bucket b hb
  rw [eq_nil_of_used hused hb] at hempty
  have hbucket : chain b = [] := (h.layout.bucket b hb).unique (r := []) hempty
  rw [hbucket] at hib
  cases hib

/-- The map refines a finite partial map exactly in the runs that use `CutAll` on empty maps
only: all replies are those of the finite partial map, and in every state the fill is its
cardinality, every key is found as in it, and the free list and the buckets partition the
assocs. -/
theorem map_refines_iff [Inhabited K] [Inhabited V] (form : MapForm K) (inSlots : ℕ)
    (ops : List (MapOp K V)) :
    (Machine.outputs (mapStep form) (some (Map.init inSlots)) ops =
        Machine.outputs (mapSpecStep form) (∅ : AbstractMap form V) ops ∧
      ∀ before, before <+: ops → Refines form
        (Machine.exec (mapStep form) (some (Map.init inSlots)) before)
        (Machine.exec (mapSpecStep form) (∅ : AbstractMap form V) before)) ↔
    Machine.Along (mapSpecStep form) (CutsAllOfEmpty form) (∅ : AbstractMap form V) ops := by
  refine Machine.refinement_iff
    (R := fun s m => ∃ map chain free, s = some map ∧ Represents form map chain free m)
    ?_ ?_ ?_ ⟨_, _, _, rfl, represents_init form inSlots⟩
  · rintro s m ⟨map, chain, free, rfl, h⟩
    exact h.refines
  · rintro s m op ⟨map, chain, free, rfl, h⟩ hop
    cases op with
    | put k v =>
      obtain ⟨map', chain', free', hput, h'⟩ := h.put k v
      simp only [mapStep, Machine.ofPartial, call, hput]
      exact ⟨rfl, map', chain', free', rfl, h'⟩
    | get k =>
      simp only [mapStep, Machine.ofPartial, call, h.get k]
      exact ⟨rfl, map, chain, free, rfl, h⟩
    | cut k =>
      obtain ⟨map', chain', free', hcut, h'⟩ := h.cut k
      simp only [mapStep, Machine.ofPartial, call, hcut]
      exact ⟨rfl, map', chain', free', rfl, h'⟩
    | cutAll =>
      obtain rfl : m = ∅ := hop
      obtain ⟨hcount, h'⟩ := h.cutAll
      simp only [mapStep, Machine.ofPartial, call, hcount]
      exact ⟨by simp [mapSpecStep], _, _, _, rfl, h'⟩
  · rintro s m op ⟨map, chain, free, rfl, h⟩ hop - hrefines
    cases op with
    | cutAll => exact h.not_partitioned_cutAll hop hrefines.1
    | _ => exact hop trivial

end Runs

/-! ## A key found after `CutAll` -/

/-- The methods of `morkIntMap`. -/
def intMapForm : MapForm UInt32 where
  equal a b := a == b
  hash := id
  equivalence :=
    ⟨fun a => beq_self_eq_true a, fun h => beq_iff_eq.mpr (beq_iff_eq.mp h).symm,
      fun h h' => beq_iff_eq.mpr ((beq_iff_eq.mp h).trans (beq_iff_eq.mp h'))⟩
  hash_eq h := beq_iff_eq.mp h

/-- After `CutAll` the key is still found. -/
theorem cutAll_keeps_key :
    Machine.outputs (mapStep intMapForm) (some (Map.init 3)) [.put 1 10, .cutAll, .get 1] =
        [some (.assoc none), some (.count 1), some (.assoc (some (1, (10 : ℕ))))] ∧
      Machine.outputs (mapStep intMapForm) (some (Map.init 3 : Map UInt32 ℕ))
          [.put 1 10, .cutAll, .get 1] ≠
        Machine.outputs (mapSpecStep intMapForm) ∅ [.put 1 10, .cutAll, .get 1] := by
  decide

end CommCentral.Mork
