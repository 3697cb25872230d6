import CommCentral.Gloda.LruCache

/-!
# Lookups among the cache and the collections

`GlodaCollectionManager.cacheLookupMany`, from
`mailnews/db/gloda/modules/Collection.jsm`.

The keys of the id map are looked up in the cache of the noun first, and those
that are not found there in one collection after the other (`Partly` says where
the lookup is).  The keys are only collected by the pass over the cache, so for a
noun without a cache no key is looked up, found or not.
-/

namespace CommCentral.Gloda

open Function List LruCache

variable {ι Id U : Type} [DecidableEq ι] [DecidableEq Id] [DecidableEq U]

/-! ## The lookup -/

/-- The keys of a dictionary. -/
abbrev Keys (Id : Type) := { keys : List Id // keys.Nodup }

/-- Where `cacheLookupMany` is. -/
structure Lookup (ι Id U : Type) where
  foundCount : ℤ
  notFoundCount : ℤ
  notFound : List Id
  aTargetMap : Id → Option ι
  cache : Option (LruCache ι Id U)

/-- `getCollectionsForNounID`: the id maps of the collections that are still referenced. -/
def getCollectionsForNounID (collectionsByNoun : List (Option (Id → Option ι))) :
    List (Id → Option ι) :=
  collectionsByNoun.filterMap id

/-- A key is looked up in the cache; `none` if a statement throws. -/
def lookupCached (s : Lookup ι Id U) (key : Id) : Option (Lookup ι Id U) :=
  match s.cache with
  | none => some s
  | some cache =>
    match cache.idMap key with
    | none => some { s with
        notFoundCount := s.notFoundCount + 1
        notFound := s.notFound ++ [key] }
    | some cacheValue => do
      let cache ← (cache.hit cacheValue).toOption
      some { s with
        foundCount := s.foundCount + 1
        aTargetMap := Function.update s.aTargetMap key (some cacheValue)
        cache := some cache }

/-- `if (cache) { cache.add([collValue]); }`, where the cache counts only with `aDoCache`. -/
def addFound (noun : Noun ι Id U) (aDoCache : Bool) (cache : Option (LruCache ι Id U))
    (collValue : ι) : Option (Option (LruCache ι Id U)) :=
  match aDoCache, cache with
  | true, some cache => (cache.add noun [collValue]).toOption.map some
  | _, cache => some cache

/-- A key that was not found is looked up in a collection. -/
def lookupCollection (noun : Noun ι Id U) (aDoCache : Bool) (idMap : Id → Option ι)
    (s : Lookup ι Id U) (key : Id) : Option (Lookup ι Id U) :=
  match idMap key with
  | none => some s
  | some collValue => do
    let cache ← addFound noun aDoCache s.cache collValue
    some {
      foundCount := s.foundCount + 1
      notFoundCount := s.notFoundCount - 1
      notFound := s.notFound.erase key
      aTargetMap := Function.update s.aTargetMap key (some collValue)
      cache := cache }

def cacheLookupMany (noun : Noun ι Id U) (cache : Option (LruCache ι Id U))
    (collectionsByNoun : List (Option (Id → Option ι))) (aIDMap : Keys Id)
    (aTargetMap : Id → Option ι) (aDoCache : Bool) : Option (Lookup ι Id U) := do
  let s ← aIDMap.val.foldlM lookupCached ⟨0, 0, [], aTargetMap, cache⟩
  (getCollectionsForNounID collectionsByNoun).foldlM
    (fun s idMap => s.notFound.foldlM (lookupCollection noun aDoCache idMap) s) s

/-! ## What a lookup is for -/

/-- The cache or a collection holds the instance under the key. -/
def Holds (cache : Option (LruCache ι Id U)) (collectionsByNoun : List (Option (Id → Option ι)))
    (key : Id) (o : ι) : Prop :=
  (∃ s ∈ cache, s.idMap key = some o) ∨ ∃ idMap ∈ collectionsByNoun, ∃ m ∈ idMap, m key = some o

structure Accounts (cache : Option (LruCache ι Id U))
    (collectionsByNoun : List (Option (Id → Option ι))) (aIDMap : Keys Id)
    (aTargetMap : Id → Option ι) (r : Lookup ι Id U) : Prop where
  /-- The keys that were found and those that were not are all keys. -/
  counts : r.foundCount + r.notFoundCount = aIDMap.val.length
  /-- A key that something holds is mapped to such an instance. -/
  gained : ∀ key ∈ aIDMap.val, (∃ o, Holds cache collectionsByNoun key o) →
    ∃ o, r.aTargetMap key = some o ∧ Holds cache collectionsByNoun key o
  only : ∀ key, ¬ (key ∈ aIDMap.val ∧ ∃ o, Holds cache collectionsByNoun key o) →
    r.aTargetMap key = aTargetMap key
  /-- The other keys are those that were not found, each once. -/
  rest : r.notFound.Nodup ∧
    ∀ key, key ∈ r.notFound ↔ key ∈ aIDMap.val ∧ ¬ ∃ o, Holds cache collectionsByNoun key o

/-! ## A cache in order -/

def InOrder (noun : Noun ι Id U) (s : LruCache ι Id U) : Prop :=
  ∃ limit > 0, ∃ a, Follows noun limit s a

variable {noun : Noun ι Id U} {s : LruCache ι Id U}

/-- A cache that was used in any way is in order. -/
theorem inOrder_exec (noun : Noun ι Id U) (aCacheSize : ℤ) (ops : List (CacheOp ι)) :
    InOrder noun (Machine.exec (LruCache.step noun) (.new noun aCacheSize) ops) :=
  ⟨_, by omega, _, cache_follows_usage noun aCacheSize ops⟩

theorem InOrder.hit (h : InOrder noun s) {key : Id} {o : ι} (ho : s.idMap key = some o) :
    ∃ s', s.hit o = .ok s' ∧ InOrder noun s' ∧ s'.idMap = s.idMap := by
  obtain ⟨limit, hlimit, a, hfollows⟩ := h
  have hstep := hfollows.step hlimit (.hit o)
  obtain ⟨l, htracks, -⟩ := hfollows
  obtain ⟨u, w, rfl⟩ := append_of_mem ((htracks.ids key o).mp ho).1
  obtain ⟨L', hhit, -⟩ := hitLinks_of_mem htracks.linked
  have hok : s.hit o = .ok { s with links := L' } := by
    rw [LruCache.hit, hhit]
    rfl
  rw [LruCache.step, hok] at hstep
  exact ⟨_, hok, ⟨limit, hlimit, _, hstep⟩, rfl⟩

theorem InOrder.add (h : InOrder noun s) (items : List ι) :
    ∃ s', s.add noun items = .ok s' ∧ InOrder noun s' := by
  obtain ⟨limit, hlimit, a, hfollows⟩ := h
  have hstep := hfollows.step hlimit (.add items)
  obtain ⟨l, htracks, -⟩ := hfollows
  obtain ⟨s', l', hadd, -⟩ := htracks.add hlimit items
  rw [LruCache.step, hadd] at hstep
  exact ⟨s', hadd, limit, hlimit, _, hstep⟩

theorem addFound_inOrder {cache : Option (LruCache ι Id U)} (h : ∀ c ∈ cache, InOrder noun c)
    (aDoCache : Bool) (o : ι) :
    ∃ cache', addFound noun aDoCache cache o = some cache' ∧ ∀ c ∈ cache', InOrder noun c := by
  cases aDoCache with
  | false => exact ⟨cache, rfl, h⟩
  | true =>
    cases cache with
    | none => exact ⟨none, rfl, h⟩
    | some c =>
      obtain ⟨c', hadd, hc'⟩ := (h c rfl).add [o]
      refine ⟨some c', by rw [addFound, hadd]; rfl, fun c'' hc'' => ?_⟩
      obtain rfl := Option.some.inj hc''
      exact hc'

/-! ## Where the lookup is -/

/-- The keys were looked up, and what was seen under them is `seen`. -/
structure Partly (noun : Noun ι Id U) (seen : Id → Option ι) (keys : List Id)
    (aTargetMap : Id → Option ι) (s : Lookup ι Id U) : Prop where
  counts : s.foundCount + s.notFoundCount = keys.length
  /-- Those that were not found are counted by `notFoundCount`. -/
  count : s.notFoundCount = s.notFound.length
  /-- They are the keys under which nothing was seen. -/
  notFound : s.notFound = keys.filter fun key => (seen key).isNone
  target : ∀ key, s.aTargetMap key =
    if key ∈ keys then (seen key).or (aTargetMap key) else aTargetMap key
  cache : ∀ c ∈ s.cache, InOrder noun c

variable {seen m : Id → Option ι} {keys : List Id} {aTargetMap : Id → Option ι}
  {r : Lookup ι Id U} {key : Id}

omit [DecidableEq U] in
theorem Partly.congr {seen' : Id → Option ι} (h : Partly noun seen keys aTargetMap r)
    (hseen : ∀ key ∈ keys, seen key = seen' key) : Partly noun seen' keys aTargetMap r where
  counts := h.counts
  count := h.count
  notFound := by
    rw [h.notFound]
    exact filter_congr fun key hkey => by rw [hseen key hkey]
  target key := by
    rw [h.target key]
    split_ifs with hkey
    · rw [hseen key hkey]
    · rfl
  cache := h.cache

variable {c : LruCache ι Id U}

theorem Partly.lookupCached (h : Partly noun c.idMap keys aTargetMap r) (hc : r.cache = some c)
    (hkey : key ∉ keys) :
    ∃ r' c', lookupCached r key = some r' ∧ r'.cache = some c' ∧ c'.idMap = c.idMap ∧
      Partly noun c.idMap (keys ++ [key]) aTargetMap r' := by
  have hmem : ∀ k, k ∈ keys ++ [key] ↔ k ∈ keys ∨ k = key := by simp
  cases ho : c.idMap key with
  | none =>
    have hlookup : Gloda.lookupCached r key = some { r with
        notFoundCount := r.notFoundCount + 1
        notFound := r.notFound ++ [key] } := by
      simp only [Gloda.lookupCached, hc, ho]
    refine ⟨_, c, hlookup, hc, rfl, ?_⟩
    constructor
    · have := h.counts
      simp only [length_append, length_singleton]
      omega
    · have := h.count
      simp only [length_append, length_singleton]
      omega
    · simp [h.notFound, ho]
    · intro k
      rw [h.target k]
      rcases eq_or_ne k key with rfl | hne
      · rw [if_neg hkey, if_pos ((hmem k).mpr (.inr rfl)), ho, Option.none_or]
      · simp only [hmem, hne, or_false]
    · exact h.cache
  | some o =>
    obtain ⟨c', hhit, hc', hmap⟩ := (h.cache c hc).hit ho
    have hlookup : Gloda.lookupCached r key = some { r with
        foundCount := r.foundCount + 1
        aTargetMap := Function.update r.aTargetMap key (some o)
        cache := some c' } := by
      simp only [Gloda.lookupCached, hc, ho, hhit]
      rfl
    refine ⟨_, c', hlookup, rfl, hmap, ?_⟩
    constructor
    · have := h.counts
      simp only [length_append, length_singleton]
      omega
    · exact h.count
    · simp [h.notFound, ho]
    · intro k
      rcases eq_or_ne k key with rfl | hne
      · rw [if_pos ((hmem k).mpr (.inr rfl)), ho]
        exact update_self ..
      · simp only [hmem, hne, or_false, ← h.target k]
        exact update_of_ne hne ..
    · intro c'' hc''
      obtain rfl := Option.some.inj hc''
      exact hc'

theorem Partly.cachePass {more : List Id} (h : Partly noun c.idMap keys aTargetMap r)
    (hc : r.cache = some c) (hnodup : (keys ++ more).Nodup) :
    ∃ r', more.foldlM Gloda.lookupCached r = some r' ∧
      Partly noun c.idMap (keys ++ more) aTargetMap r' := by
  induction more generalizing keys r c with
  | nil => exact ⟨r, rfl, by rwa [List.append_nil]⟩
  | cons key more ih =>
    have hkey : key ∉ keys := fun hmem =>
      (nodup_append.mp hnodup).2.2 key hmem key mem_cons_self rfl
    obtain ⟨r', c', hlookup, hc', hmap, h'⟩ := h.lookupCached hc hkey
    rw [← hmap] at h'
    obtain ⟨r'', hpass, h''⟩ := ih h' hc' (by simpa using hnodup)
    refine ⟨r'', by rw [foldlM_cons, hlookup]; exact hpass, ?_⟩
    rw [hmap] at h''
    simpa using h''

theorem Partly.lookupCollection (h : Partly noun seen keys aTargetMap r) (hnodup : keys.Nodup)
    (hkey : key ∈ keys) (hseen : seen key = none) (aDoCache : Bool) (m : Id → Option ι) :
    ∃ r', lookupCollection noun aDoCache m r key = some r' ∧
      Partly noun (Function.update seen key (m key)) keys aTargetMap r' := by
  cases ho : m key with
  | none =>
    refine ⟨r, by rw [Gloda.lookupCollection]; simp only [ho], ?_⟩
    rwa [← hseen, update_eq_self]
  | some o =>
    obtain ⟨cache, hcache, hin⟩ := addFound_inOrder h.cache aDoCache o
    have hmem : key ∈ r.notFound := by
      rw [h.notFound]
      exact mem_filter.mpr ⟨hkey, by rw [hseen]; rfl⟩
    have hlookup : Gloda.lookupCollection noun aDoCache m r key = some {
        foundCount := r.foundCount + 1
        notFoundCount := r.notFoundCount - 1
        notFound := r.notFound.erase key
        aTargetMap := Function.update r.aTargetMap key (some o)
        cache := cache } := by
      simp only [Gloda.lookupCollection, ho, hcache]
      rfl
    refine ⟨_, hlookup, ?_⟩
    constructor
    · have := h.counts
      dsimp only
      omega
    · have hpos := length_pos_of_mem hmem
      have hcount := h.count
      dsimp only
      rw [length_erase_of_mem hmem]
      omega
    · dsimp only
      rw [h.notFound, (hnodup.filter _).erase_eq_filter, filter_filter]
      refine filter_congr fun k _ => ?_
      rcases eq_or_ne k key with rfl | hne
      · simp
      · simp [hne]
    · intro k
      rcases eq_or_ne k key with rfl | hne
      · rw [if_pos hkey]
        simp
      · rw [update_of_ne hne, ← h.target k]
        exact update_of_ne hne ..
    · exact hin

/-- Keys that were not found are looked up in a collection. -/
theorem Partly.lookupMany {more : List Id} (h : Partly noun seen keys aTargetMap r)
    (hnodup : keys.Nodup) (hmore : more.Nodup) (hsub : ∀ key ∈ more, key ∈ keys ∧ seen key = none)
    (aDoCache : Bool) (m : Id → Option ι) :
    ∃ r', more.foldlM (Gloda.lookupCollection noun aDoCache m) r = some r' ∧
      Partly noun (fun key => if key ∈ more then m key else seen key) keys aTargetMap r' := by
  induction more generalizing seen r with
  | nil => exact ⟨r, rfl, h.congr fun _ _ => by simp⟩
  | cons key more ih =>
    obtain ⟨hkey, hseen⟩ := hsub key mem_cons_self
    obtain ⟨hnot, hmore⟩ := nodup_cons.mp hmore
    obtain ⟨r', hlookup, h'⟩ := h.lookupCollection hnodup hkey hseen aDoCache m
    have hsub' : ∀ k ∈ more, k ∈ keys ∧ Function.update seen key (m key) k = none := by
      intro k hk
      have hne : k ≠ key := by
        rintro rfl
        exact hnot hk
      rw [update_of_ne hne]
      exact hsub k (mem_cons_of_mem _ hk)
    obtain ⟨r'', hmany, h''⟩ := ih h' hmore hsub'
    refine ⟨r'', by rw [foldlM_cons, hlookup]; exact hmany, h''.congr fun k _ => ?_⟩
    rcases eq_or_ne k key with rfl | hne
    · simp [hnot]
    · simp [hne]

theorem Partly.collectionPass (h : Partly noun seen keys aTargetMap r) (hnodup : keys.Nodup)
    (aDoCache : Bool) (m : Id → Option ι) :
    ∃ r', r.notFound.foldlM (Gloda.lookupCollection noun aDoCache m) r = some r' ∧
      Partly noun (fun key => (seen key).or (m key)) keys aTargetMap r' := by
  have hmem : ∀ key, key ∈ r.notFound ↔ key ∈ keys ∧ seen key = none := by
    intro key
    rw [h.notFound, mem_filter, Option.isNone_iff_eq_none]
  have hmore : r.notFound.Nodup := by
    rw [h.notFound]
    exact hnodup.filter _
  obtain ⟨r', hmany, h'⟩ := h.lookupMany hnodup hmore (fun key => (hmem key).mp) aDoCache m
  refine ⟨r', hmany, h'.congr fun key hkey => ?_⟩
  cases hseen : seen key with
  | none => rw [if_pos ((hmem key).mpr ⟨hkey, hseen⟩), Option.none_or]
  | some o =>
    rw [if_neg fun hin => by rw [((hmem key).mp hin).2] at hseen; cases hseen]
    rfl

/-- The instance under a key that is found first. -/
def firstHeld (idMap : Id → Option ι) (collections : List (Id → Option ι)) (key : Id) : Option ι :=
  collections.foldl (fun o m => o.or (m key)) (idMap key)

theorem Partly.collectionPasses (h : Partly noun seen keys aTargetMap r) (hnodup : keys.Nodup)
    (aDoCache : Bool) (collections : List (Id → Option ι)) :
    ∃ r', collections.foldlM
        (fun r m => r.notFound.foldlM (Gloda.lookupCollection noun aDoCache m) r) r = some r' ∧
      Partly noun (firstHeld seen collections) keys aTargetMap r' := by
  induction collections generalizing seen r with
  | nil => exact ⟨r, rfl, h⟩
  | cons m collections ih =>
    obtain ⟨r', hpass, h'⟩ := h.collectionPass hnodup aDoCache m
    obtain ⟨r'', hpasses, h''⟩ := ih h'
    exact ⟨r'', by rw [foldlM_cons, hpass]; exact hpasses, h''⟩

/-! ## The whole lookup -/

omit [DecidableEq ι] [DecidableEq Id] in
theorem firstHeld_cons (m m' : Id → Option ι) (collections : List (Id → Option ι)) :
    firstHeld m (m' :: collections) = firstHeld (fun key => (m key).or (m' key)) collections :=
  rfl

section

variable {m : Id → Option ι} {collections : List (Id → Option ι)} {o : ι}

omit [DecidableEq ι] [DecidableEq Id] in
theorem held_of_firstHeld (h : firstHeld m collections key = some o) :
    m key = some o ∨ ∃ m' ∈ collections, m' key = some o := by
  induction collections generalizing m with
  | nil => exact .inl h
  | cons m' collections ih =>
    rw [firstHeld_cons] at h
    rcases ih h with hor | ⟨m'', hmem, ho⟩
    · rcases Option.or_eq_some_iff.mp hor with ho | ⟨-, ho⟩
      · exact .inl ho
      · exact .inr ⟨m', mem_cons_self, ho⟩
    · exact .inr ⟨m'', mem_cons_of_mem _ hmem, ho⟩

omit [DecidableEq ι] [DecidableEq Id] in
/-- What is held is found, or something else under the same key. -/
theorem firstHeld_ne_none (h : m key = some o ∨ ∃ m' ∈ collections, m' key = some o) :
    firstHeld m collections key ≠ none := by
  induction collections generalizing m o with
  | nil =>
    rcases h with ho | ⟨m', hmem, -⟩
    · exact Option.ne_none_iff_exists'.mpr ⟨o, ho⟩
    · cases hmem
  | cons m' collections ih =>
    rw [firstHeld_cons]
    rcases h with ho | ⟨m'', hmem, ho⟩
    · exact @ih _ o (.inl (by rw [ho]; rfl))
    · cases hmem with
      | head =>
        cases hm : m key with
        | none => exact @ih _ o (.inl (by rw [hm, Option.none_or, ho]))
        | some o' => exact @ih _ o' (.inl (by rw [hm]; rfl))
      | tail _ hmem => exact @ih _ o (.inr ⟨m'', hmem, ho⟩)

end

omit [DecidableEq ι] [DecidableEq Id] [DecidableEq U] in
theorem holds_some_iff {collectionsByNoun : List (Option (Id → Option ι))}
    {o : ι} : Holds (some c) collectionsByNoun key o ↔
      c.idMap key = some o ∨ ∃ m ∈ getCollectionsForNounID collectionsByNoun, m key = some o := by
  rw [Holds]
  refine or_congr (by simp) ?_
  constructor
  · rintro ⟨idMap, hmem, m, hm, ho⟩
    exact ⟨m, mem_filterMap.mpr ⟨idMap, hmem, hm⟩, ho⟩
  · rintro ⟨m, hmem, ho⟩
    obtain ⟨idMap, hmem, hm⟩ := mem_filterMap.mp hmem
    exact ⟨idMap, hmem, m, hm, ho⟩

theorem accounts_of_inOrder (hc : InOrder noun c)
    (collectionsByNoun : List (Option (Id → Option ι))) (aIDMap : Keys Id)
    (aTargetMap : Id → Option ι) (aDoCache : Bool) :
    ∃ r, cacheLookupMany noun (some c) collectionsByNoun aIDMap aTargetMap aDoCache = some r ∧
      Accounts (some c) collectionsByNoun aIDMap aTargetMap r := by
  have hstart : Partly noun c.idMap [] aTargetMap ⟨0, 0, [], aTargetMap, some c⟩ := by
    refine ⟨rfl, rfl, rfl, fun key => by rw [if_neg not_mem_nil], fun c' hc' => ?_⟩
    obtain rfl := Option.some.inj hc'
    exact hc
  obtain ⟨r₁, hpass, h₁⟩ := hstart.cachePass rfl aIDMap.property
  obtain ⟨r, hpasses, h⟩ := h₁.collectionPasses aIDMap.property aDoCache
    (getCollectionsForNounID collectionsByNoun)
  have hheld : ∀ key, (∃ o, Holds (some c) collectionsByNoun key o) ↔
      firstHeld c.idMap (getCollectionsForNounID collectionsByNoun) key ≠ none := by
    intro key
    constructor
    · rintro ⟨o, ho⟩
      exact firstHeld_ne_none (holds_some_iff.mp ho)
    · intro hne
      obtain ⟨o, ho⟩ := Option.ne_none_iff_exists'.mp hne
      exact ⟨o, holds_some_iff.mpr (held_of_firstHeld ho)⟩
  rw [List.nil_append] at h
  refine ⟨r, ?_, h.counts, fun key hkey hex => ?_, fun key hnot => ?_, ?_, fun key => ?_⟩
  · rw [cacheLookupMany, hpass]
    exact hpasses
  · obtain ⟨o, ho⟩ := Option.ne_none_iff_exists'.mp ((hheld key).mp hex)
    refine ⟨o, ?_, holds_some_iff.mpr (held_of_firstHeld ho)⟩
    rw [h.target key, if_pos hkey, ho]
    rfl
  · rw [h.target key]
    split_ifs with hkey
    · have hnone : firstHeld c.idMap (getCollectionsForNounID collectionsByNoun) key = none := by
        by_contra hne
        exact hnot ⟨hkey, (hheld key).mpr hne⟩
      rw [hnone, Option.none_or]
    · rfl
  · rw [h.notFound]
    exact aIDMap.property.filter _
  · rw [h.notFound, mem_filter, hheld key, not_not, Option.isNone_iff_eq_none]

theorem cacheLookupMany_none (collectionsByNoun : List (Option (Id → Option ι)))
    (aIDMap : Keys Id) (aTargetMap : Id → Option ι) (aDoCache : Bool) :
    cacheLookupMany noun none collectionsByNoun aIDMap aTargetMap aDoCache =
      some ⟨0, 0, [], aTargetMap, none⟩ := by
  have hpass : ∀ keys : List Id,
      keys.foldlM lookupCached (⟨0, 0, [], aTargetMap, none⟩ : Lookup ι Id U) =
        some ⟨0, 0, [], aTargetMap, none⟩ := by
    intro keys
    induction keys with
    | nil => rfl
    | cons key keys ih => exact ih
  rw [cacheLookupMany, hpass]
  induction getCollectionsForNounID collectionsByNoun with
  | nil => rfl
  | cons m collections ih => exact ih

/-- The cache of a noun: none, or one that was used in some way. -/
def cacheOf (noun : Noun ι Id U) (used : Option (ℤ × List (CacheOp ι))) :
    Option (LruCache ι Id U) :=
  used.map fun use => Machine.exec (LruCache.step noun) (.new noun use.1) use.2

/-- Each key is accounted for exactly if the noun has a cache, or there are no keys. -/
theorem accounts_iff_cached (noun : Noun ι Id U) (used : Option (ℤ × List (CacheOp ι)))
    (collectionsByNoun : List (Option (Id → Option ι))) (aIDMap : Keys Id)
    (aTargetMap : Id → Option ι) (aDoCache : Bool) :
    (∃ r, cacheLookupMany noun (cacheOf noun used) collectionsByNoun aIDMap aTargetMap aDoCache =
        some r ∧ Accounts (cacheOf noun used) collectionsByNoun aIDMap aTargetMap r) ↔
      used.isSome ∨ aIDMap.val = [] := by
  cases used with
  | some use =>
    refine iff_of_true ?_ (.inl rfl)
    exact accounts_of_inOrder (inOrder_exec noun use.1 use.2) collectionsByNoun aIDMap aTargetMap
      aDoCache
  | none =>
    have hnone := @cacheLookupMany_none _ _ _ _ _ _ noun collectionsByNoun aIDMap aTargetMap aDoCache
    constructor
    · rintro ⟨r, hr, h⟩
      obtain rfl := Option.some.inj (hnone.symm.trans hr)
      have hcounts : (0 : ℤ) + 0 = aIDMap.val.length := h.counts
      exact .inr (eq_nil_of_length_eq_zero (by omega))
    · rintro (h | h)
      · cases h
      · refine ⟨_, hnone, by rw [h]; rfl, fun key hkey => ?_, fun _ _ => rfl, .nil, fun key => ?_⟩
        · rw [h] at hkey
          cases hkey
        · rw [h]
          simp

/-- Numbers under themselves. -/
def numbers : Noun ℕ ℕ ℕ := ⟨id, id, false, injective_id, injective_id⟩

/-- A collection holds the only key, and no cache was defined: the key is lost. -/
theorem accounts_uncached :
    ¬ ∃ r, cacheLookupMany numbers (cacheOf numbers none) [some fun key => some key]
      ⟨[5], nodup_singleton 5⟩ (fun _ => none) true = some r ∧
        Accounts (cacheOf numbers none) [some fun key => some key] ⟨[5], nodup_singleton 5⟩
          (fun _ => none) r := by
  rintro ⟨r, hr, h⟩
  obtain rfl := Option.some.inj hr
  exact absurd h.counts (by decide)

end CommCentral.Gloda
