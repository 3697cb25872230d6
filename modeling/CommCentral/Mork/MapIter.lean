import CommCentral.Mork.MapRefinement

/-!
# `morkMapIter`

An iteration over a map goes through its buckets and may cut the assoc that it visits.
The iterator holds the address of the link that leads to the current assoc, and the next
assoc of the bucket.  When the current assoc has been cut, that link leads to the next one.

Every iteration over a map without stale buckets visits the assocs in use in the order of the
buckets, each once (`mapIter_visits`).

The iterator and the map are in sync as long as nothing but the iterator changes the map.
-/

namespace CommCentral.Mork

open List Function

open Links (Chain behind)

/-! ## The iterator -/

/-- `morkMapIter`, without its map.  The bucket and the address are used only when there is a
current assoc. -/
structure MapIter where
  seed : UInt32
  bucket : ℕ
  assocRef : LinkRef
  assoc : Option ℕ
  next : Option ℕ

structure Iteration (K V : Type) where
  map : Map K V
  seed : UInt32
  iter : MapIter

/-- The search for a nonempty bucket among `n` buckets from `b` on: the bucket and its first
assoc. -/
def Map.nextBucket {K V : Type} (map : Map K V) : ℕ → ℕ → Option (ℕ × ℕ)
  | 0, _ => none
  | n + 1, b =>
    match map.links (.bucket b) with
    | some i => some (b, i)
    | none => map.nextBucket n (b + 1)

namespace Iteration

variable {K V : Type}

/-- The iteration stands at the first assoc of a bucket. -/
def atBucket (s : Iteration K V) (b i : ℕ) : Iteration K V :=
  { s with iter := { s.iter with
      bucket := b, assocRef := .bucket b, assoc := some i, next := s.map.links (.next i) } }

/-- `First`: the assoc with its key and value, if there is one. -/
def first (s : Iteration K V) : Iteration K V × Option (ℕ × K × V) :=
  let s := { s with iter := { s.iter with seed := s.seed } }
  match s.map.nextBucket s.map.slots 0 with
  | some (b, i) => (s.atBucket b i, some (i, s.map.getAssoc i))
  | none => (s, none)

def next (s : Iteration K V) : Iteration K V × Option (ℕ × K × V) :=
  if s.iter.seed ≠ s.seed then (s, none)
  else
    match s.iter.assoc with
    | none => (s, none)
    | some here =>
      match s.iter.next with
      | some next =>
        -- if the current assoc was cut, the link leads to the next one already
        let ref := if s.map.links s.iter.assocRef ≠ some next then .next here else s.iter.assocRef
        ({ s with iter := { s.iter with
            assocRef := ref, assoc := some next, next := s.map.links (.next next) } },
          some (next, s.map.getAssoc next))
      | none =>
        match s.map.nextBucket (s.map.slots - (s.iter.bucket + 1)) (s.iter.bucket + 1) with
        | some (b, i) => (s.atBucket b i, some (i, s.map.getAssoc i))
        | none => ({ s with iter := { s.iter with assoc := none } }, none)

def cutHere (s : Iteration K V) : Iteration K V × Option (K × V) :=
  if s.iter.seed ≠ s.seed then (s, none)
  else
    match s.iter.assoc with
    | none => (s, none)
    | some here =>
      if s.map.links s.iter.assocRef ≠ s.iter.next then
        let pushed := s.map.pushAssoc .freeList here
        ({ map := { pushed with
            links := Function.update pushed.links s.iter.assocRef s.iter.next
            fill := pushed.fill - 1 }
           seed := s.seed + 1
           iter := { s.iter with seed := s.seed + 1 } },
          some (s.map.getAssoc here))
      else (s, none)

end Iteration

structure Visit (K V : Type) where
  assoc : ℕ
  got : K × V
  map : Map K V
  /-- `CutHere` is called there. -/
  cut : Bool

/-- The positions from one on, until `Next` finds no assoc.  `cutAt` tells where `CutHere` is
called. -/
def iterateFrom {K V : Type} (cutAt : ℕ → Bool) :
    ℕ → ℕ → Iteration K V × Option (ℕ × K × V) → Option (List (Visit K V) × Iteration K V)
  | 0, _, _ => none
  | _ + 1, _, (s, none) => some ([], s)
  | fuel + 1, n, (s, some (i, got)) =>
    let here := if cutAt n then s.cutHere.1 else s
    (iterateFrom cutAt fuel (n + 1) here.next).map fun (visits, s') =>
      (⟨i, got, s.map, cutAt n⟩ :: visits, s')

/-- An iteration from `First` to the end. -/
def iterate {K V : Type} (cutAt : ℕ → Bool) (s : Iteration K V) :
    Option (List (Visit K V) × Iteration K V) :=
  iterateFrom cutAt (s.map.slots + 1) 0 s.first

def cutKeys {K V : Type} (form : MapForm K) (visits : List (Visit K V)) : List form.Key :=
  (visits.filter (·.cut)).map fun v => form.key v.got.1

/-! ## The buckets to come -/

section Calls

variable {K V : Type} {form : MapForm K} {map : Map K V} {m : AbstractMap form V}
  {chain : ℕ → List ℕ} {free : List ℕ}

/-- The assocs of `n` buckets from `b` on. -/
def inBuckets (chain : ℕ → List ℕ) (b n : ℕ) : List ℕ := (List.range' b n).flatMap chain

theorem inBuckets_succ (chain : ℕ → List ℕ) (b n : ℕ) :
    inBuckets chain b (n + 1) = chain b ++ inBuckets chain (b + 1) n := by
  rw [inBuckets, range'_succ, flatMap_cons, inBuckets]

theorem used_eq_inBuckets (slots : ℕ) (chain : ℕ → List ℕ) :
    used slots chain = inBuckets chain 0 slots := by
  rw [used, inBuckets, range_eq_range']

theorem inBuckets_update {b b' : ℕ} (h : b < b') (chain : ℕ → List ℕ) (l : List ℕ) (n : ℕ) :
    inBuckets (update chain b l) b' n = inBuckets chain b' n := by
  refine flatMap_congr fun c hc => update_of_ne ?_ _ _
  have hle := (mem_range'_1.1 hc).1
  omega

/-- The search finds the first assoc of the buckets, if they have one. -/
theorem nextBucket_spec (n : ℕ) {b : ℕ}
    (hchain : ∀ c, b ≤ c → c < b + n → Chain .next map.links (.bucket c) (chain c)) :
    (inBuckets chain b n = [] ∧ map.nextBucket n b = none) ∨
      ∃ c i r, b ≤ c ∧ c < b + n ∧ map.nextBucket n b = some (c, i) ∧ chain c = i :: r ∧
        inBuckets chain b n = i :: (r ++ inBuckets chain (c + 1) (b + n - (c + 1))) := by
  induction n generalizing b with
  | zero => exact Or.inl ⟨rfl, rfl⟩
  | succ n ih =>
    have hb := hchain b (Nat.le_refl b) (Nat.lt_add_of_pos_right (Nat.succ_pos n))
    rw [inBuckets_succ, Map.nextBucket]
    cases hc : chain b with
    | nil =>
      rw [hc] at hb
      rw [hb, List.nil_append]
      rcases ih fun c hle hlt => hchain c (Nat.le_of_succ_le hle) (by omega) with
        ⟨hnil, hnone⟩ | ⟨c, i, r, hle, hlt, hfound, hci, hall⟩
      · exact Or.inl ⟨hnil, hnone⟩
      · refine Or.inr ⟨c, i, r, Nat.le_of_succ_le hle, by omega, hfound, hci, ?_⟩
        rw [hall, Nat.succ_add_eq_add_succ]
    | cons i r =>
      rw [hc] at hb
      rw [hb.1]
      refine Or.inr ⟨b, i, r, Nat.le_refl b, by omega, rfl, hc, ?_⟩
      have hn : b + (n + 1) - (b + 1) = n := by omega
      rw [hn, cons_append]

/-! ## Where an iteration is -/

/-- The iteration stands in a bucket, at an assoc that may have been cut, behind the assocs `l` of
the bucket and in front of `r`. -/
structure StandsAt (form : MapForm K) (s : Iteration K V) (chain : ℕ → List ℕ) (free : List ℕ)
    (m : AbstractMap form V) (b i : ℕ) (l r : List ℕ) (cut : Bool) : Prop where
  represents : Represents form s.map chain free m
  sync : s.iter.seed = s.seed
  bucket_lt : b < s.map.slots
  chain_eq : chain b = l ++ if cut then r else i :: r
  bucket : s.iter.bucket = b
  assocRef : s.iter.assocRef = behind .next (.bucket b) l
  assoc : s.iter.assoc = some i
  next : s.iter.next = r.head?

/-- The assocs to come in the buckets behind. -/
def Iteration.later (s : Iteration K V) (chain : ℕ → List ℕ) (b : ℕ) : List ℕ :=
  inBuckets chain (b + 1) (s.map.slots - (b + 1))

def Map.IsFree (map : Map K V) (i : ℕ) : Prop :=
  ∃ free, Chain .next map.links .freeList free ∧ i ∈ free

variable {s : Iteration K V} {b i : ℕ} {l r : List ℕ}

theorem StandsAt.links (h : StandsAt form s chain free m b i l r false) :
    s.map.links s.iter.assocRef = some i ∧ s.map.links (.next i) = s.iter.next ∧ i ∉ l ∧ i ∉ r := by
  have hchain := h.represents.layout.bucket b h.bucket_lt
  have hnodup := (h.represents.layout.bucket_disjoint h.bucket_lt).1
  have heq := h.chain_eq
  rw [heq] at hchain hnodup
  obtain ⟨hi, hr⟩ := hchain.drop
  have hnot := (nodup_middle.1 hnodup)
  rw [nodup_cons, mem_append, not_or] at hnot
  refine ⟨by rw [h.assocRef]; exact hi, ?_, hnot.1⟩
  rw [h.next]
  cases r with
  | nil => exact hr
  | cons j r => exact hr.1

theorem StandsAt.not_isFree (h : StandsAt form s chain free m b i l r false) : ¬s.map.IsFree i := by
  rintro ⟨free', hfree', hi⟩
  have hmem : i ∈ chain b := by
    rw [h.chain_eq]
    simp
  obtain rfl := hfree'.unique h.represents.layout.freeList
  exact ((h.represents.layout.bucket_disjoint h.bucket_lt).2 i hmem).1 hi

theorem update_push_freeList (links : LinkRef → Option ℕ) {ref : LinkRef}
    (hnext : ref ≠ .next i) (hfree : ref ≠ .freeList) (next : Option ℕ) :
    update (Links.push .next links .freeList i) ref next =
      Links.push .next (update links ref next) .freeList i := by
  rw [Links.push, Links.push, update_of_ne hfree.symm, update_comm hfree.symm,
    update_comm hnext.symm]

/-- `CutHere` takes the current assoc out of its bucket. -/
theorem StandsAt.cutHere (h : StandsAt form s chain free m b i l r false) :
    StandsAt form s.cutHere.1 (update chain b (l ++ r)) (i :: free)
        (m.erase (form.key (s.map.keys i))) b i l r true ∧
      s.cutHere.1.map.getAssoc = s.map.getAssoc ∧ s.cutHere.1.map.slots = s.map.slots ∧
      s.cutHere.1.map.fill + 1 = s.map.fill := by
  obtain ⟨hlink, hnext, hl, hr⟩ := h.links
  have hhead : s.map.links s.iter.assocRef ≠ s.iter.next := by
    rw [hlink, h.next]
    cases r with
    | nil => simp
    | cons j r =>
      rintro ⟨⟩
      exact hr mem_cons_self
  have hbehind := Links.behind_eq LinkRef.next (.bucket b) l
  have hfree : s.iter.assocRef ≠ .freeList := by
    rw [h.assocRef]
    rcases hbehind with ⟨-, hb⟩ | ⟨k, -, hb⟩ <;> rw [hb] <;> simp
  have hself : s.iter.assocRef ≠ .next i := by
    rw [h.assocRef]
    rcases hbehind with ⟨-, hb⟩ | ⟨k, hk, hb⟩
    · rw [hb]
      simp
    · rw [hb]
      rintro hki
      obtain rfl := LinkRef.next.inj hki
      exact hl hk
  have hcut : s.cutHere = ({ map := s.map.removeAssoc s.iter.assocRef i, seed := s.seed + 1
                             iter := { s.iter with seed := s.seed + 1 } },
      some (s.map.getAssoc i)) := by
    rw [Iteration.cutHere, if_neg (not_not.2 h.sync), h.assoc]
    dsimp only
    rw [if_pos hhead, Map.removeAssoc, hnext]
    simp only [Map.pushAssoc, update_push_freeList _ hself hfree]
  have heq : chain b = l ++ i :: r := h.chain_eq
  have hcutRep := h.represents.cut_found h.bucket_lt heq rfl
  rw [← h.assocRef] at hcutRep
  have hpos : 0 < s.map.fill := by
    rw [h.represents.fill]
    have hused : i ∈ used s.map.slots chain := mem_used.2 ⟨b, h.bucket_lt, by rw [heq]; simp⟩
    exact length_pos_of_mem hused
  rw [hcut]
  refine ⟨⟨hcutRep, rfl, h.bucket_lt, ?_, h.bucket, h.assocRef, h.assoc, h.next⟩, rfl, rfl,
    Nat.sub_add_cancel hpos⟩
  rw [update_self]
  rfl

theorem at_atBucket (h : Represents form s.map chain free m) (hsync : s.iter.seed = s.seed)
    (hb : b < s.map.slots) (hchain : chain b = i :: r) :
    StandsAt form (s.atBucket b i) chain free m b i [] r false := by
  refine ⟨h, hsync, hb, hchain, rfl, rfl, rfl, ?_⟩
  have hlinks := h.layout.bucket b hb
  rw [hchain] at hlinks
  have hnext := hlinks.2
  cases r with
  | nil => exact hnext
  | cons j r => exact hnext.1

/-- What `First` or `Next` comes to, when there are so many assocs to come. -/
def ComesTo (form : MapForm K) (map : Map K V) (chain : ℕ → List ℕ) (free : List ℕ)
    (m : AbstractMap form V) (todo : List ℕ) (moved : Iteration K V × Option (ℕ × K × V)) : Prop :=
  moved.1.map = map ∧
    ((todo = [] ∧ moved.2 = none) ∨
      ∃ j b l r, moved.2 = some (j, map.getAssoc j) ∧ StandsAt form moved.1 chain free m b j l r false ∧
        todo = j :: (r ++ moved.1.later chain b))

open Iteration

theorem comesTo_first (h : Represents form s.map chain free m) :
    ComesTo form s.map chain free m (used s.map.slots chain) s.first := by
  have hchain : ∀ c, 0 ≤ c → c < 0 + s.map.slots →
      Chain .next s.map.links (.bucket c) (chain c) := fun c _ hc =>
    h.layout.bucket c (by omega)
  rw [used_eq_inBuckets, first]
  rcases nextBucket_spec s.map.slots hchain with ⟨hnil, hnone⟩ | ⟨c, i, r, -, hc, hfound, hci, hall⟩
  · rw [hnone]
    exact ⟨rfl, Or.inl ⟨hnil, rfl⟩⟩
  · rw [hfound]
    rw [Nat.zero_add] at hc hall
    have hat : StandsAt form (atBucket { s with iter := { s.iter with seed := s.seed } } c i)
        chain free m c i [] r false := at_atBucket h rfl hc hci
    exact ⟨rfl, Or.inr ⟨i, c, [], r, rfl, hat, hall⟩⟩

theorem StandsAt.comesTo_next {cut : Bool} (h : StandsAt form s chain free m b i l r cut) :
    ComesTo form s.map chain free m (r ++ s.later chain b) s.next := by
  rw [Iteration.next, if_neg (not_not.2 h.sync), h.assoc]
  have hchain := h.represents.layout.bucket b h.bucket_lt
  rw [h.chain_eq] at hchain
  cases r with
  | nil =>
    rw [h.next, h.bucket]
    have hlater : ∀ c, b + 1 ≤ c → c < b + 1 + (s.map.slots - (b + 1)) →
        Chain .next s.map.links (.bucket c) (chain c) := fun c _ hc =>
      h.represents.layout.bucket c (by omega)
    rcases nextBucket_spec _ hlater with ⟨hnil, hnone⟩ | ⟨c, j, r, -, hc, hfound, hcj, hall⟩
    · rw [hnone]
      exact ⟨rfl, Or.inl ⟨hnil, rfl⟩⟩
    · rw [hfound]
      have hslots : b + 1 + (s.map.slots - (b + 1)) = s.map.slots :=
        Nat.add_sub_cancel' h.bucket_lt
      rw [hslots] at hc hall
      exact ⟨rfl, Or.inr ⟨j, c, [], r, rfl, at_atBucket h.represents h.sync hc hcj, hall⟩⟩
  | cons j r =>
    rw [h.next]
    dsimp only [head?_cons]
    refine ⟨rfl, Or.inr ?_⟩
    cases cut with
    | true =>
      -- the link leads to the next assoc already
      have hj := hchain.drop
      rw [← h.assocRef] at hj
      refine ⟨j, b, l, r, rfl, ⟨h.represents, h.sync, h.bucket_lt, ?_, h.bucket, ?_, rfl, ?_⟩, rfl⟩
      · rw [h.chain_eq]
        rfl
      · dsimp only
        rw [if_neg (not_not.2 hj.1), h.assocRef]
      · dsimp only
        cases r with
        | nil => exact hj.2
        | cons k r => exact hj.2.1
    | false =>
      obtain ⟨hlink, -, -, hi⟩ := h.links
      have hne : s.map.links s.iter.assocRef ≠ some j := by
        rw [hlink]
        rintro ⟨⟩
        exact hi mem_cons_self
      have hj := hchain.drop.2
      refine ⟨j, b, l ++ [i], r, rfl,
        ⟨h.represents, h.sync, h.bucket_lt, ?_, h.bucket, ?_, rfl, ?_⟩, rfl⟩
      · rw [h.chain_eq]
        simp
      · dsimp only
        rw [if_pos hne, Links.behind_append]
        rfl
      · dsimp only
        cases r with
        | nil => exact hj.2
        | cons k r => exact hj.2.1

/-! ## Iterations to the end -/

/-- The members that are left when some keys are cut. -/
def eraseKeys (m : AbstractMap form V) (keys : List form.Key) : AbstractMap form V :=
  keys.foldl (fun m q => m.erase q) m

/-- An iteration from its `n`th position to the end has visited some assocs. -/
structure Visited (form : MapForm K) (cutAt : ℕ → Bool) (n : ℕ) (map : Map K V)
    (m : AbstractMap form V) (todo : List ℕ) (visits : List (Visit K V)) (map' : Map K V) :
    Prop where
  assocs : visits.map (·.assoc) = todo
  /-- `CutHere` was called at these positions. -/
  cuts : visits.map (·.cut) = (List.range' n visits.length).map cutAt
  got : ∀ v ∈ visits, v.got = map.getAssoc v.assoc
  notFree : ∀ v ∈ visits, ¬v.map.IsFree v.assoc
  /-- The keys that were cut are not in the map any more. -/
  represents : ∃ chain free, Represents form map' chain free (eraseKeys m (cutKeys form visits))
  fill : map'.fill + (cutKeys form visits).length = map.fill

theorem iterateFrom_visited (cutAt : ℕ → Bool) (fuel : ℕ) :
    ∀ {n : ℕ} {map : Map K V} {chain : ℕ → List ℕ} {free : List ℕ} {m : AbstractMap form V}
      {todo : List ℕ} {moved : Iteration K V × Option (ℕ × K × V)},
      Represents form map chain free m → ComesTo form map chain free m todo moved →
      todo.length < fuel →
      ∃ visits s', iterateFrom cutAt fuel n moved = some (visits, s') ∧
        Visited form cutAt n map m todo visits s'.map := by
  induction fuel with
  | zero =>
    intro n map chain free m todo moved _ _ hfuel
    cases hfuel
  | succ fuel ih =>
    intro n map chain free m todo moved hrep hcomes hfuel
    obtain ⟨s, found⟩ := moved
    obtain ⟨hmap, ⟨rfl, hnone⟩ | ⟨i, b, l, r, hsome, hat, rfl⟩⟩ := hcomes
    · obtain rfl : found = none := hnone
      obtain rfl : s.map = map := hmap
      exact ⟨[], s, rfl, rfl, rfl, by simp, by simp, ⟨chain, free, hrep⟩, rfl⟩
    · obtain rfl : found = some (i, map.getAssoc i) := hsome
      obtain rfl : s.map = map := hmap
      have hfuel' : (r ++ s.later chain b).length < fuel := Nat.lt_of_succ_lt_succ hfuel
      have hfree := hat.not_isFree
      rw [iterateFrom]
      cases hcut : cutAt n with
      | false =>
        obtain ⟨visits, s', hrun, h⟩ := ih (n := n + 1) hat.represents hat.comesTo_next hfuel'
        rw [if_neg Bool.false_ne_true, hrun]
        refine ⟨_, s', rfl, ?_, ?_, ?_, ?_, h.represents, h.fill⟩
        · rw [map_cons, h.assocs]
        · rw [map_cons, h.cuts, length_cons, range'_succ, map_cons, hcut]
        · exact forall_mem_cons.2 ⟨rfl, h.got⟩
        · exact forall_mem_cons.2 ⟨hfree, h.notFree⟩
      | true =>
        obtain ⟨hat', hgot, hslots, hfill⟩ := hat.cutHere
        have hlater : s.cutHere.1.later (update chain b (l ++ r)) b =
            s.later chain b := by
          rw [later, hslots, inBuckets_update (Nat.lt_succ_self b), later]
        have hcomes := hat'.comesTo_next
        rw [hlater] at hcomes
        obtain ⟨visits, s', hrun, h⟩ := ih (n := n + 1) hat'.represents hcomes hfuel'
        rw [if_pos rfl, hrun]
        refine ⟨_, s', rfl, ?_, ?_, ?_, ?_, h.represents, ?_⟩
        · rw [map_cons, h.assocs]
        · rw [map_cons, h.cuts, length_cons, range'_succ, map_cons, hcut]
        · refine forall_mem_cons.2 ⟨rfl, fun v hv => ?_⟩
          rw [h.got v hv, hgot]
        · exact forall_mem_cons.2 ⟨hfree, h.notFree⟩
        · have hrest := h.fill
          rw [← hfill, ← hrest]
          rfl

/-- An iteration over a map visits the assocs in use. -/
theorem Represents.iterate (h : Represents form map chain free m) (cutAt : ℕ → Bool)
    (seed : UInt32) (iter : MapIter) :
    ∃ visits s', iterate cutAt ⟨map, seed, iter⟩ = some (visits, s') ∧
      Visited form cutAt 0 map m (used map.slots chain) visits s'.map := by
  have hlen : (used map.slots chain).length < map.slots + 1 := by
    have hall := h.layout.partition.length_eq
    simp only [length_append, length_range] at hall
    omega
  exact iterateFrom_visited cutAt _ h (comesTo_first (s := ⟨map, seed, iter⟩) h) hlen

/-- The members that an iteration over the assocs in use has visited. -/
theorem Visited.members {cutAt : ℕ → Bool} {visits : List (Visit K V)} {map' : Map K V}
    (h : Visited form cutAt 0 map m (used map.slots chain) visits map')
    (hrep : Represents form map chain free m) :
    (visits.map fun v => form.key v.got.1).Nodup ∧
      (∀ q, q ∈ m ↔ q ∈ visits.map fun v => form.key v.got.1) ∧
      ∀ v ∈ visits, m.lookup (form.key v.got.1) = some v.got := by
  have hkeys : (visits.map fun v => form.key v.got.1) =
      (used map.slots chain).map fun i => form.key (map.keys i) := by
    rw [← h.assocs, map_map]
    refine map_congr_left fun v hv => ?_
    rw [h.got v hv]
    rfl
  have hused : ∀ v ∈ visits, v.assoc ∈ used map.slots chain := fun v hv => by
    rw [← h.assocs]
    exact mem_map_of_mem hv
  refine ⟨?_, fun q => ?_, fun v hv => ?_⟩
  · rw [hkeys]
    exact hrep.layout.nodup_used.map_on hrep.holds.distinct
  · rw [hkeys, mem_map]
    constructor
    · exact hrep.holds.mem q
    · rintro ⟨i, hi, rfl⟩
      exact Finmap.mem_of_lookup_eq_some (hrep.holds.lookup i hi)
  · rw [h.got v hv]
    exact hrep.holds.lookup _ (hused v hv)

end Calls

/-! ## All maps -/

section States

variable {K V : Type} [Inhabited K] [Inhabited V] {form : MapForm K} {map : Map K V}
  {m : AbstractMap form V}

/-- The maps that calls and iterations lead to, when `CutAll` is called on empty maps only, with
their members. -/
inductive MapState (form : MapForm K) : Map K V → AbstractMap form V → Prop where
  | init (inSlots : ℕ) : MapState form (Map.init inSlots) ∅
  | call {map map' : Map K V} {m : AbstractMap form V} {op : MapOp K V} {reply : MapReply K V} :
      MapState form map m → CutsAllOfEmpty form m op → map.call form op = some (map', reply) →
      MapState form map' (mapSpecStep form m op).1
  | iterate {map : Map K V} {m : AbstractMap form V} {cutAt : ℕ → Bool} {seed : UInt32}
      {iter : MapIter} {visits : List (Visit K V)} {s : Iteration K V} :
      MapState form map m → iterate cutAt ⟨map, seed, iter⟩ = some (visits, s) →
      MapState form s.map (eraseKeys m (cutKeys form visits))

theorem MapState.represents (h : MapState form map m) :
    ∃ chain free, Represents form map chain free m := by
  induction h with
  | init inSlots => exact ⟨_, _, represents_init form inSlots⟩
  | @call map map' m op reply _ hop hcall ih =>
    obtain ⟨chain, free, h⟩ := ih
    cases op with
    | put k v =>
      obtain ⟨map'', chain', free', hput, h'⟩ := h.put k v
      rw [Map.call, hput] at hcall
      obtain ⟨rfl, -⟩ := Prod.mk.inj (Option.some.inj hcall)
      exact ⟨chain', free', h'⟩
    | get k =>
      rw [Map.call, h.get k] at hcall
      obtain ⟨rfl, -⟩ := Prod.mk.inj (Option.some.inj hcall)
      exact ⟨chain, free, h⟩
    | cut k =>
      obtain ⟨map'', chain', free', hcut, h'⟩ := h.cut k
      rw [Map.call, hcut] at hcall
      obtain ⟨rfl, -⟩ := Prod.mk.inj (Option.some.inj hcall)
      exact ⟨chain', free', h'⟩
    | cutAll =>
      obtain rfl : m = ∅ := hop
      obtain ⟨rfl, -⟩ := Prod.mk.inj (Option.some.inj hcall)
      exact ⟨_, _, h.cutAll.2⟩
  | iterate _ hrun ih =>
    obtain ⟨chain, free, h⟩ := ih
    obtain ⟨visits, s, hrun', hvisited⟩ := h.iterate _ _ _
    obtain ⟨rfl, rfl⟩ := Prod.mk.inj (Option.some.inj (hrun'.symm.trans hrun))
    exact hvisited.represents

/-- An iteration over a map with some members has visited each of them once. -/
structure VisitsOnce (form : MapForm K) (cutAt : ℕ → Bool) (map : Map K V)
    (m : AbstractMap form V) (visits : List (Visit K V)) (map' : Map K V) : Prop where
  cuts : visits.map (·.cut) = (List.range visits.length).map cutAt
  nodup : (visits.map fun v => form.key v.got.1).Nodup
  mem_iff : ∀ q, q ∈ m ↔ q ∈ visits.map fun v => form.key v.got.1
  lookup : ∀ v ∈ visits, m.lookup (form.key v.got.1) = some v.got
  notFree : ∀ v ∈ visits, ¬v.map.IsFree v.assoc
  /-- The map has lost the keys that were cut, and no others. -/
  refines : Refines form (some map') (eraseKeys m (cutKeys form visits))
  fill : map'.fill + (cutKeys form visits).length = map.fill

/-- **An iteration visits every member once**, whatever it cuts: the keys that are cut are those
that the map has lost afterwards, the fill is less by their number, and nothing is read from a free
assoc. -/
theorem mapIter_visits (h : MapState form map m) (cutAt : ℕ → Bool) (seed : UInt32)
    (iter : MapIter) :
    ∃ visits s', iterate cutAt ⟨map, seed, iter⟩ = some (visits, s') ∧
      VisitsOnce form cutAt map m visits s'.map := by
  obtain ⟨chain, free, hrep⟩ := h.represents
  obtain ⟨visits, s', hrun, hvisited⟩ := hrep.iterate cutAt seed iter
  obtain ⟨hnodup, hmem, hlookup⟩ := hvisited.members hrep
  obtain ⟨chain', free', hrep'⟩ := hvisited.represents
  have hcuts := hvisited.cuts
  rw [← range_eq_range'] at hcuts
  exact ⟨visits, s', hrun, hcuts, hnodup, hmem, hlookup, hvisited.notFree, hrep'.refines,
    hvisited.fill⟩

end States

def newIter : MapIter := ⟨0, 0, .bucket 0, none, none⟩

def mapAfter (ops : List (MapOp UInt32 ℕ)) : Option (Map UInt32 ℕ) :=
  Machine.exec (mapStep intMapForm) (some (Map.init 3)) ops

theorem mapIter_visits_one :
    ∃ map, mapAfter [.put 1 10] = some map ∧
      ∃ visits s', iterate (fun _ => true) ⟨map, 2, newIter⟩ = some (visits, s') ∧
        VisitsOnce intMapForm (fun _ => true) map
          ((∅ : AbstractMap intMapForm ℕ).insert (intMapForm.key 1) (1, 10)) visits s'.map := by
  have hop : CutsAllOfEmpty intMapForm (∅ : AbstractMap intMapForm ℕ) (.put 1 10) := trivial
  have hput : MapState intMapForm _ ((∅ : AbstractMap intMapForm ℕ).insert _ (1, 10)) :=
    .call (.init 3) hop rfl
  exact ⟨_, rfl, mapIter_visits hput _ _ _⟩

/-- After `CutAll` the buckets still lead to the assocs, which are free. -/
theorem mapIter_visits_free :
    ∃ map, mapAfter [.put 1 10, .cutAll] = some map ∧ map.fill = 0 ∧
      ∃ visits s', iterate (fun _ => false) ⟨map, 3, newIter⟩ = some (visits, s') ∧
        ∃ v ∈ visits, v.map.IsFree v.assoc :=
  ⟨_, rfl, rfl, _, _, rfl, _, mem_cons_self, [0, 1, 2], ⟨rfl, rfl, rfl, rfl⟩, by decide⟩

end CommCentral.Mork
