import Mathlib.Data.List.Induction
import CommCentral.Search.ImapKeys
import CommCentral.Search.Offline

/-!
# What an IMAP server finds

The text that `EncodeImap` writes is the text of some keys behind UNDELETED.  A
term that is joined by AND adds its keys behind the ones before it.  A term that
is joined by OR makes one key of all of them: in parentheses an OR, which takes
the first two, and the rest (`addKeys`).

So the server finds what the terms say, from the left to the right, when each OR
joins two keys (`OrsAreBinary`).  Otherwise, if no two terms test the same, there
are messages for which the server has another answer.
-/

namespace CommCentral.Search

open List Operand BoolExpression SearchKeys
open SearchKeys (Key)
open SearchKeys.Key (textKeys valueAll AllWellFormed)

variable {dates : DateFormat} {now : ℤ} {v : List Char → List (List Char) → Bool}

/-! ## The keys of a list of terms -/

/-- An OR of the first two keys, and the others, in parentheses. -/
def joinOr : List Key → Key
  | left :: right :: keys => .group (.or left right) keys
  | keys => .group (.basic [] []) keys

def addKeys (dates : DateFormat) (now : ℤ) (keys : List Key) (t : SearchTerm ImapTest) :
    List Key :=
  if keys.isEmpty then t.test.keys dates now
  else if t.booleanAnd then keys ++ t.test.keys dates now
  else [joinOr (keys ++ t.test.keys dates now)]

def encodedKeys (dates : DateFormat) (now : ℤ) (terms : List (SearchTerm ImapTest)) : List Key :=
  terms.foldl (addKeys dates now) []

/-- What a term says, in keys. -/
def holds (dates : DateFormat) (now : ℤ) (v : List Char → List (List Char) → Bool)
    (t : ImapTest) : Bool := valueAll v (t.keys dates now)

/-- Each OR joins two keys. -/
def OrsAreBinary (terms : List (SearchTerm ImapTest)) : Prop :=
  ∀ before s t after, terms = before ++ s :: t :: after → t.booleanAnd = false →
    t.test.oneKey = true ∧ (s.booleanAnd = false ∨ before = []) ∧
      (before = [] → s.test.oneKey = true)

/-- The terms are not grouped, and none of them matches all. -/
def Plain (terms : List (SearchTerm ImapTest)) : Prop :=
  ∀ t ∈ terms, t.matchAll = false ∧ t.beginsGrouping = false ∧ t.endsGrouping = false

instance (terms : List (SearchTerm ImapTest)) : Decidable (Plain terms) :=
  inferInstanceAs (Decidable (∀ t ∈ terms, t.matchAll = false ∧ t.beginsGrouping = false ∧
    t.endsGrouping = false))

/-! ## Adding a term -/

theorem keys_ne_nil (t : ImapTest) : t.keys dates now ≠ [] := by
  intro hnil
  have hkeys := t.keys_of_oneKey dates now
  rw [hnil] at hkeys
  split at hkeys
  · obtain ⟨key, hkeys⟩ := hkeys
    cases hkeys
  · obtain ⟨key, key', hkeys⟩ := hkeys
    cases hkeys

theorem addKeys_nil (t : SearchTerm ImapTest) :
    addKeys dates now [] t = t.test.keys dates now := rfl

variable {keys : List Key} {t : SearchTerm ImapTest}

theorem addKeys_and (hkeys : keys ≠ [])
    (ht : t.booleanAnd = true) : addKeys dates now keys t = keys ++ t.test.keys dates now := by
  cases keys with
  | nil => exact absurd rfl hkeys
  | cons key keys =>
    rw [addKeys, ht]
    rfl

theorem addKeys_or (hkeys : keys ≠ []) (ht : t.booleanAnd = false) :
    addKeys dates now keys t = [joinOr (keys ++ t.test.keys dates now)] := by
  cases keys with
  | nil => exact absurd rfl hkeys
  | cons key keys =>
    rw [addKeys, ht]
    rfl

theorem encodedKeys_concat (terms : List (SearchTerm ImapTest)) (t : SearchTerm ImapTest) :
    encodedKeys dates now (terms ++ [t]) = addKeys dates now (encodedKeys dates now terms) t := by
  rw [encodedKeys, foldl_append]
  rfl

theorem encodedKeys_eq_nil (terms : List (SearchTerm ImapTest)) :
    encodedKeys dates now terms = [] ↔ terms = [] := by
  induction terms using reverseRecOn with
  | nil => exact ⟨fun _ => rfl, fun _ => rfl⟩
  | append_singleton terms t ih =>
    have hne : encodedKeys dates now (terms ++ [t]) ≠ [] := by
      rw [encodedKeys_concat, addKeys]
      split
      · exact keys_ne_nil t.test
      · split
        · exact append_ne_nil_of_right_ne_nil _ (keys_ne_nil t.test)
        · exact cons_ne_nil _ _
    exact ⟨fun h => absurd h hne, fun h => absurd h (by simp)⟩

theorem two_keys {keys' : List Key} (hkeys : keys ≠ []) (hkeys' : keys' ≠ []) :
    ∃ left right rest, keys ++ keys' = left :: right :: rest := by
  cases keys with
  | nil => exact absurd rfl hkeys
  | cons left keys =>
    cases keys with
    | cons right keys => exact ⟨left, right, keys ++ keys', rfl⟩
    | nil =>
      cases keys' with
      | nil => exact absurd rfl hkeys'
      | cons right keys' => exact ⟨left, right, keys', rfl⟩

/-- The terms are one key when the last one is joined by OR, or is the only one and is one key. -/
theorem length_encodedKeys_concat (terms : List (SearchTerm ImapTest)) (t : SearchTerm ImapTest) :
    (encodedKeys dates now (terms ++ [t])).length = 1 ↔
      (t.booleanAnd = false ∨ terms = []) ∧ (terms = [] → t.test.oneKey = true) := by
  have hone : (t.test.keys dates now).length = 1 ↔ t.test.oneKey = true := by
    have hkeys := t.test.keys_of_oneKey dates now
    cases ht : t.test.oneKey with
    | true =>
      rw [ht] at hkeys
      obtain ⟨key, hkeys⟩ := hkeys
      rw [hkeys]
      exact ⟨fun _ => rfl, fun _ => rfl⟩
    | false =>
      rw [ht] at hkeys
      obtain ⟨key, key', hkeys⟩ := hkeys
      rw [hkeys]
      constructor
      · intro h
        cases h
      · intro h
        cases h
  rw [encodedKeys_concat]
  rcases eq_or_ne terms [] with rfl | hterms
  · rw [encodedKeys, foldl_nil, addKeys_nil, hone]
    exact ⟨fun h => ⟨Or.inr rfl, fun _ => h⟩, fun h => h.2 rfl⟩
  have hkeys : encodedKeys dates now terms ≠ [] := fun h => hterms ((encodedKeys_eq_nil terms).mp h)
  cases ht : t.booleanAnd with
  | true =>
    have htest : t.test.keys dates now ≠ [] := keys_ne_nil t.test
    obtain ⟨left, right, rest, heq⟩ := two_keys hkeys htest
    rw [addKeys_and hkeys ht, heq]
    constructor
    · intro h
      cases h
    · intro h
      rcases h.1 with h | h
      · cases h
      · exact absurd h hterms
  | false =>
    rw [addKeys_or hkeys ht]
    exact ⟨fun _ => ⟨Or.inl rfl, fun h => absurd h hterms⟩, fun _ => rfl⟩

/-- An OR that is added joins two keys when the terms before it are one key. -/
theorem orsAreBinary_concat (dates : DateFormat) (now : ℤ) (terms : List (SearchTerm ImapTest))
    (t : SearchTerm ImapTest) :
    OrsAreBinary (terms ++ [t]) ↔ OrsAreBinary terms ∧ (terms ≠ [] → t.booleanAnd = false →
      t.test.oneKey = true ∧ (encodedKeys dates now terms).length = 1) := by
  constructor
  · intro h
    constructor
    · intro before s t' after heq
      exact h before s t' (after ++ [t]) (by rw [heq]; simp)
    · intro hterms ht
      rcases eq_nil_or_concat terms with hnil | ⟨before, s, rfl⟩
      · exact absurd hnil hterms
      obtain ⟨htest, hs⟩ := h before s t [] (by simp) ht
      rw [concat_eq_append, length_encodedKeys_concat]
      exact ⟨htest, hs⟩
  · intro h before s t' after heq ht'
    rcases eq_nil_or_concat after with rfl | ⟨after', u, rfl⟩
    · have hlast : terms = before ++ [s] ∧ t = t' := by
        have heq' : terms ++ [t] = (before ++ [s]) ++ [t'] := by
          rw [heq]
          simp
        obtain ⟨hterms, ht⟩ := append_inj' heq' rfl
        exact ⟨hterms, singleton_inj.mp ht⟩
      obtain ⟨rfl, rfl⟩ := hlast
      obtain ⟨htest, hlen⟩ := h.2 (by simp) ht'
      exact ⟨htest, (length_encodedKeys_concat before s).mp hlen⟩
    · have heq' : terms ++ [t] = (before ++ s :: t' :: after') ++ [u] := by
        rw [heq]
        simp
      exact h.1 before s t' after' (append_inj' heq' rfl).1 ht'

/-! ## Values -/

/-- The terms as operands, from the left to the right. -/
def operands (terms : List (SearchTerm ImapTest)) : List (Operand (SearchTerm ImapTest)) :=
  terms.map fun t => leaf t t.booleanAnd

/-- What each term says offline is what its keys say. -/
def Agrees (dates : DateFormat) (now : ℤ) (v : List Char → List (List Char) → Bool)
    (process : SearchTerm ImapTest → Bool) (terms : List (SearchTerm ImapTest)) : Prop :=
  ∀ t ∈ terms, process t = holds dates now v t.test

variable {process : SearchTerm ImapTest → Bool} {terms : List (SearchTerm ImapTest)}

theorem Agrees.concat (h : Agrees dates now v process (terms ++ [t])) :
    Agrees dates now v process terms ∧ process t = holds dates now v t.test :=
  ⟨fun s hs => h s (mem_append_left _ hs), h t (by simp)⟩

theorem operands_concat (terms : List (SearchTerm ImapTest)) (t : SearchTerm ImapTest) :
    operands (terms ++ [t]) = operands terms ++ [leaf t t.booleanAnd] := by
  rw [operands, map_append]
  rfl

theorem operands_ne_nil (h : terms ≠ []) : operands terms ≠ [] := by
  intro hnil
  exact h (map_eq_nil_iff.mp hnil)

theorem values_operands_concat (process : SearchTerm ImapTest → Bool) (hterms : terms ≠ [])
    (t : SearchTerm ImapTest) :
    values process (operands (terms ++ [t])) =
      join t.booleanAnd (values process (operands terms)) (process t) := by
  rw [operands_concat, values_concat (operands_ne_nil hterms), joinsAnd, Operand.value]

theorem value_joinOr (left right : Key) (rest : List Key) :
    (joinOr (left :: right :: rest)).value v =
      ((left.value v || right.value v) && valueAll v rest) := by
  rw [joinOr, Key.value, Key.value]

theorem valueAll_singleton (key : Key) : valueAll v [key] = key.value v := by
  rw [valueAll, valueAll, Bool.and_true]

theorem valueAll_encodedKeys (hbinary : OrsAreBinary terms)
    (hagrees : Agrees dates now v process terms) :
    valueAll v (encodedKeys dates now terms) = values process (operands terms) := by
  induction terms using reverseRecOn with
  | nil => rfl
  | append_singleton terms t ih =>
    obtain ⟨hbefore, hor⟩ := (orsAreBinary_concat dates now terms t).mp hbinary
    obtain ⟨hagrees, ht⟩ := hagrees.concat
    have ih := ih hbefore hagrees
    rcases eq_or_ne terms [] with rfl | hterms
    · rw [encodedKeys_concat]
      exact ht.symm
    have hkeys : encodedKeys dates now terms ≠ [] :=
      fun h => hterms ((encodedKeys_eq_nil terms).mp h)
    rw [encodedKeys_concat, values_operands_concat process hterms, ← ih, ht, holds]
    cases hand : t.booleanAnd with
    | true => rw [addKeys_and hkeys hand, Key.valueAll_append, join, if_pos rfl]
    | false =>
      -- one key and one key
      obtain ⟨htest, hlen⟩ := hor hterms hand
      obtain ⟨left, hleft⟩ := length_eq_one_iff.mp hlen
      have hone := t.test.keys_of_oneKey dates now
      rw [htest] at hone
      obtain ⟨right, hright⟩ := hone
      rw [addKeys_or hkeys hand, hleft, hright, singleton_append, valueAll_singleton,
        value_joinOr, valueAll_singleton, valueAll_singleton, valueAll, Bool.and_true, join,
        if_neg Bool.false_ne_true]

variable {b : Bool}

theorem valueAll_of_forall (hne : keys ≠ [])
    (hkeys : ∀ key ∈ keys, key.value v = b) : valueAll v keys = b := by
  induction keys with
  | nil => exact absurd rfl hne
  | cons key keys ih =>
    rw [valueAll, hkeys key mem_cons_self]
    cases keys with
    | nil => rw [valueAll, Bool.and_true]
    | cons key' keys =>
      rw [ih (cons_ne_nil _ _) fun k hk => hkeys k (mem_cons_of_mem key hk),
        Bool.and_self]

theorem holds_of_forall {t : ImapTest} (h : ∀ key ∈ t.keys dates now, key.value v = b) :
    holds dates now v t = b :=
  valueAll_of_forall (keys_ne_nil t) h

theorem value_encodedKeys (h : ∀ t ∈ terms, ∀ key ∈ t.test.keys dates now, key.value v = b) :
    ∀ key ∈ encodedKeys dates now terms, key.value v = b := by
  induction terms using reverseRecOn with
  | nil =>
    intro key hkey
    cases hkey
  | append_singleton terms t ih =>
    have ih := ih fun s hs => h s (mem_append_left _ hs)
    have ht := h t (by simp)
    rcases eq_or_ne terms [] with rfl | hterms
    · rw [encodedKeys_concat]
      exact ht
    have hkeys : encodedKeys dates now terms ≠ [] :=
      fun h => hterms ((encodedKeys_eq_nil terms).mp h)
    have hboth : ∀ key ∈ encodedKeys dates now terms ++ t.test.keys dates now,
        key.value v = b := by
      intro key hkey
      rcases mem_append.mp hkey with hkey | hkey
      · exact ih key hkey
      · exact ht key hkey
    rw [encodedKeys_concat]
    cases hand : t.booleanAnd with
    | true =>
      rw [addKeys_and hkeys hand]
      exact hboth
    | false =>
      obtain ⟨left, right, rest, heq⟩ := two_keys hkeys (keys_ne_nil t.test)
      rw [addKeys_or hkeys hand, heq]
      rw [heq] at hboth
      intro key hkey
      obtain rfl := mem_singleton.mp hkey
      rw [value_joinOr, hboth left (by simp), hboth right (by simp), Bool.or_self]
      cases rest with
      | nil => rw [valueAll, Bool.and_true]
      | cons key rest =>
        rw [valueAll_of_forall (cons_ne_nil key rest) fun k hk =>
          hboth k (mem_cons_of_mem _ (mem_cons_of_mem _ hk)), Bool.and_self]

/-! ## Messages that are found differently -/

/-- Terms with the values that their keys have. -/
def Given (dates : DateFormat) (now : ℤ) (v : List Char → List (List Char) → Bool)
    (ps : List (SearchTerm ImapTest × Bool)) : Prop :=
  ∀ p ∈ ps, ∀ key ∈ p.1.test.keys dates now, key.value v = p.2

/-- The values of the terms make the server's answer another one. -/
def Differs (dates : DateFormat) (now : ℤ) (terms : List (SearchTerm ImapTest))
    (ps : List (SearchTerm ImapTest × Bool)) : Prop :=
  ps.map Prod.fst = terms ∧ ∀ v process, Agrees dates now v process terms →
    Given dates now v ps →
      valueAll v (encodedKeys dates now terms) ≠ values process (operands terms)

theorem Given.concat {ps : List (SearchTerm ImapTest × Bool)}
    (h : Given dates now v (ps ++ [(t, b)])) :
    Given dates now v ps ∧ ∀ key ∈ t.test.keys dates now, key.value v = b :=
  ⟨fun p hp => h p (mem_append_left _ hp), h (t, b) (by simp)⟩

theorem Given.of_map (h : Given dates now v (terms.map fun t => (t, b))) :
    ∀ t ∈ terms, ∀ key ∈ t.test.keys dates now, key.value v = b :=
  fun t ht => h (t, b) (mem_map_of_mem ht)

theorem map_fst_concat (terms : List (SearchTerm ImapTest)) (t : SearchTerm ImapTest)
    (b c : Bool) : ((terms.map fun t => (t, b)) ++ [(t, c)]).map Prod.fst = terms ++ [t] := by
  rw [map_append, map_map]
  exact congrArg (· ++ [t]) (map_id terms)

theorem values_of_forall (h : ∀ t ∈ terms, process t = true) :
    values process (operands terms) = true := by
  induction terms using reverseRecOn with
  | nil => rfl
  | append_singleton terms t ih =>
    have ht := h t (by simp)
    rcases eq_or_ne terms [] with rfl | hterms
    · exact ht
    rw [values_operands_concat process hterms, ht, ih fun s hs => h s (mem_append_left _ hs)]
    cases t.booleanAnd with
    | true => rfl
    | false => rfl

theorem exists_differs_or (hterms : terms ≠ []) (hand : t.booleanAnd = false)
    (h : ¬ (t.test.oneKey = true ∧ (encodedKeys dates now terms).length = 1)) :
    ∃ ps, Differs dates now (terms ++ [t]) ps := by
  have hkeys : encodedKeys dates now terms ≠ [] := fun h => hterms ((encodedKeys_eq_nil terms).mp h)
  cases hlen : encodedKeys dates now terms with
  | nil => exact absurd hlen hkeys
  | cons left keys =>
    cases keys with
    | nil =>
      -- the terms before hold, and the second key of the term does not
      have htwo := t.test.keys_of_oneKey dates now
      rw [if_neg fun hone => h ⟨hone, by rw [hlen]; rfl⟩] at htwo
      obtain ⟨key, key', htwo⟩ := htwo
      refine ⟨(terms.map fun t => (t, true)) ++ [(t, false)], map_fst_concat _ _ _ _, ?_⟩
      intro v process hagrees hgiven
      obtain ⟨hgiven, ht⟩ := hgiven.concat
      have hbefore : values process (operands terms) = true := by
        apply values_of_forall
        intro s hs
        rw [hagrees.concat.1 s hs]
        exact holds_of_forall (hgiven.of_map s hs)
      rw [encodedKeys_concat, addKeys_or hkeys hand, hlen, htwo, singleton_append,
        valueAll_singleton, value_joinOr, valueAll_singleton, ht key' (by rw [htwo]; simp),
        Bool.and_false, values_operands_concat process hterms, hbefore, hand, join,
        if_neg Bool.false_ne_true, Bool.true_or]
      decide
    | cons right keys =>
      -- the terms before do not hold, and the term does
      refine ⟨(terms.map fun t => (t, false)) ++ [(t, true)], map_fst_concat _ _ _ _, ?_⟩
      intro v process hagrees hgiven
      obtain ⟨hgiven, ht⟩ := hgiven.concat
      have hbefore := value_encodedKeys hgiven.of_map
      have hleft : left.value v = false := hbefore left (by rw [hlen]; simp)
      have hright : right.value v = false := hbefore right (by rw [hlen]; simp)
      rw [encodedKeys_concat, addKeys_or hkeys hand, hlen, cons_append, cons_append,
        valueAll_singleton, value_joinOr, hleft, hright, values_operands_concat process hterms,
        hagrees.concat.2, holds_of_forall ht, hand, join, if_neg Bool.false_ne_true,
        Bool.or_true, Bool.or_false, Bool.false_and]
      decide

/-- When some OR does not join two keys, there are values of the terms for which the server has
another answer; the terms behind it do not make up for it. -/
theorem exists_differs (dates : DateFormat) (now : ℤ) (h : ¬ OrsAreBinary terms) :
    ∃ ps, Differs dates now terms ps := by
  induction terms using reverseRecOn with
  | nil =>
    refine absurd ?_ h
    intro before s t after heq
    cases before <;> cases heq
  | append_singleton terms t ih =>
    rw [orsAreBinary_concat dates now] at h
    rcases Classical.em (OrsAreBinary terms) with hbinary | hbinary
    · have hor : terms ≠ [] ∧ t.booleanAnd = false ∧
          ¬ (t.test.oneKey = true ∧ (encodedKeys dates now terms).length = 1) := by
        simpa only [hbinary, true_and, not_forall, exists_prop] using h
      exact exists_differs_or hor.1 hor.2.1 hor.2.2
    obtain ⟨ps, hps, hdiffers⟩ := ih hbinary
    have hterms : terms ≠ [] := by
      rintro rfl
      apply hbinary
      intro before s t after heq
      cases before <;> cases heq
    have hkeys : encodedKeys dates now terms ≠ [] :=
      fun h => hterms ((encodedKeys_eq_nil terms).mp h)
    cases hand : t.booleanAnd with
    | true =>
      refine ⟨ps ++ [(t, true)], by simp [hps], ?_⟩
      intro v process hagrees hgiven
      obtain ⟨hgiven, ht⟩ := hgiven.concat
      rw [encodedKeys_concat, addKeys_and hkeys hand, Key.valueAll_append,
        valueAll_of_forall (keys_ne_nil t.test) ht, Bool.and_true,
        values_operands_concat process hterms, hagrees.concat.2, holds_of_forall ht, hand, join,
        if_pos rfl, Bool.and_true]
      exact hdiffers v process hagrees.concat.1 hgiven
    | false =>
      rcases Classical.em (t.test.oneKey = true ∧ (encodedKeys dates now terms).length = 1)
        with hjoin | hjoin
      · refine ⟨ps ++ [(t, false)], by simp [hps], ?_⟩
        intro v process hagrees hgiven
        obtain ⟨hgiven, ht⟩ := hgiven.concat
        obtain ⟨left, hleft⟩ := length_eq_one_iff.mp hjoin.2
        have hone := t.test.keys_of_oneKey dates now
        rw [hjoin.1] at hone
        obtain ⟨right, hright⟩ := hone
        have hdiffers := hdiffers v process hagrees.concat.1 hgiven
        rw [hleft, valueAll_singleton] at hdiffers
        rw [encodedKeys_concat, addKeys_or hkeys hand, hleft, hright, singleton_append,
          valueAll_singleton, value_joinOr, ht right (by rw [hright]; simp), Bool.or_false,
          valueAll, Bool.and_true, values_operands_concat process hterms, hagrees.concat.2,
          holds_of_forall ht, hand, join, if_neg Bool.false_ne_true, Bool.or_false]
        exact hdiffers
      · exact exists_differs_or hterms hand hjoin

/-- No two terms test the same. -/
def Independent (dates : DateFormat) (now : ℤ) (terms : List (SearchTerm ImapTest)) : Prop :=
  terms.Pairwise fun s t => ∀ atom ∈ s.test.atoms dates now, atom ∉ t.test.atoms dates now

/-- Terms that do not test the same can have any values. -/
theorem exists_given {ps : List (SearchTerm ImapTest × Bool)}
    (h : Independent dates now (ps.map Prod.fst)) : ∃ v, Given dates now v ps := by
  have hatoms : ∃ v : List Char → List (List Char) → Bool, ∀ p ∈ ps,
      ∀ atom ∈ p.1.test.atoms dates now, v atom.1 atom.2 = (p.2 ^^ p.1.test.useNot) := by
    rw [Independent, pairwise_map] at h
    induction ps with
    | nil =>
      refine ⟨fun _ _ => false, fun p hp => ?_⟩
      cases hp
    | cons p ps ih =>
      obtain ⟨hp, hps⟩ := pairwise_cons.mp h
      obtain ⟨v, hv⟩ := ih hps
      refine ⟨fun name args => if (name, args) ∈ p.1.test.atoms dates now then
        (p.2 ^^ p.1.test.useNot) else v name args, ?_⟩
      intro q hq atom hatom
      rcases mem_cons.mp hq with rfl | hq
      · exact if_pos hatom
      · exact (if_neg fun hmem => hp q hq atom hmem hatom).trans (hv q hq atom hatom)
  obtain ⟨v, hv⟩ := hatoms
  exact ⟨v, fun p hp => ImapTest.value_keys (hv p hp)⟩

/-! ## The text -/

/-- An expression is written as some keys. -/
structure Encodes (expr : BoolExpression ImapTest) (keys : List Key) : Prop where
  isNull : expr.isNull = false
  isEmpty : expr.isEmpty = true ↔ keys = []
  text : ∀ buffer, expr.generateEncodeStr buffer = buffer ++ textKeys keys

theorem encodes_empty : Encodes .empty [] :=
  ⟨rfl, ⟨fun _ => rfl, fun _ => rfl⟩, fun buffer => (append_nil buffer).symm⟩

theorem textKeys_joinOr {left right : Key} {rest : List Key} (heq : keys = left :: right :: rest) :
    textKeys [joinOr keys] = " (OR".toList ++ textKeys keys ++ [')'] := by
  rw [heq, joinOr]
  simp [textKeys, Key.text]

theorem Encodes.addTerm (dates : DateFormat) (now : ℤ) {expr : BoolExpression ImapTest}
    (h : Encodes expr keys) (ht : t.test.Encodable) :
    Encodes (expr.leftToRightAddTerm t (textKeys (t.test.keys dates now)))
      (addKeys dates now keys t) := by
  have htest : t.test.keys dates now ≠ [] := keys_ne_nil t.test
  have hleaf : ∀ isAnd buffer, (node (some t)
      (textKeys (t.test.keys dates now)) isAnd .null .null).generateEncodeStr buffer =
      buffer ++ textKeys (t.test.keys dates now) := by
    intro isAnd buffer
    rw [generateEncodeStr]
  cases hempty : expr.isEmpty with
  | true =>
    obtain ⟨isAnd, heq⟩ := leftToRightAddTerm_of_isEmpty hempty t
      (textKeys (t.test.keys dates now))
    obtain rfl := h.isEmpty.mp hempty
    rw [heq]
    refine ⟨rfl, ⟨fun hnode => ?_, fun hnil => absurd hnil htest⟩, fun buffer => ?_⟩
    · cases hnode
    · exact hleaf isAnd buffer
  | false =>
    have hkeys : keys ≠ [] := by
      intro hnil
      rw [h.isEmpty.mpr hnil] at hempty
      cases hempty
    rw [leftToRightAddTerm_of_not_isEmpty hempty]
    have hnode : ∀ isAnd left right, (node none ([] : List Char) isAnd left
        (node (some t) right true .null .null)).isEmpty = false := by
      intro isAnd left right
      cases left <;> rfl
    cases hand : t.booleanAnd with
    | true =>
      rw [addKeys_and hkeys hand]
      refine ⟨rfl, ⟨fun hempty => ?_, fun hnil => ?_⟩, fun buffer => ?_⟩
      · rw [hnode] at hempty
        cases hempty
      · exact absurd (append_eq_nil_iff.mp hnil).1 hkeys
      · rw [generateEncodeStr, h.isNull, h.text buffer, hleaf,
          Key.textKeys_append, append_assoc]
        rfl
    | false =>
      obtain ⟨left, right, rest, heq⟩ := two_keys hkeys htest
      rw [addKeys_or hkeys hand]
      refine ⟨rfl, ⟨fun hempty => ?_, fun hnil => ?_⟩, fun buffer => ?_⟩
      · rw [hnode] at hempty
        cases hempty
      · cases hnil
      · rw [generateEncodeStr, h.isNull, textKeys_joinOr heq,
          Key.textKeys_append]
        change dropLastSpace (generateEncodeStr _
          (expr.generateEncodeStr (buffer ++ " (OR".toList))) ++ [')'] = _
        rw [h.text, hleaf, ((ht.endsBare dates now).append _).dropLastSpace]
        simp only [append_assoc]

section

variable (dates : DateFormat) (now : ℤ) (hmatch : ∀ t ∈ terms, t.matchAll = false)
    (hterms : ∀ t ∈ terms, t.test.Encodable)

include hmatch hterms

theorem addEncodedTerms_encodes {expr : BoolExpression ImapTest} (h : Encodes expr keys) :
    ∃ expr', addEncodedTerms dates now terms expr = some expr' ∧
      Encodes expr' (terms.foldl (addKeys dates now) keys) := by
  induction terms generalizing expr keys with
  | nil => exact ⟨expr, rfl, h⟩
  | cons t terms ih =>
    have ht := hterms t mem_cons_self
    obtain ⟨expr', hadd, hexpr'⟩ := ih (fun s hs => hmatch s (mem_cons_of_mem t hs))
      (fun s hs => hterms s (mem_cons_of_mem t hs))
      (h.addTerm dates now ht)
    refine ⟨expr', ?_, hexpr'⟩
    rw [addEncodedTerms, hmatch t mem_cons_self, if_neg Bool.false_ne_true,
      ImapTest.encodeImapTerm_eq ht]
    exact hadd

theorem encodeImap_eq :
    encodeImap dates now terms =
      some (textKeys (.basic "UNDELETED".toList [] :: encodedKeys dates now terms)) := by
  obtain ⟨expr, hadd, hexpr⟩ :=
    addEncodedTerms_encodes dates now hmatch hterms encodes_empty
  rw [encodeImap, hadd]
  have htext := hexpr.text " UNDELETED".toList
  exact congrArg some htext

end

theorem allWellFormed_encodedKeys (hterms : ∀ t ∈ terms, t.test.Encodable) :
    AllWellFormed (encodedKeys dates now terms) := by
  induction terms using reverseRecOn with
  | nil => trivial
  | append_singleton terms t ih =>
    have ih := ih fun s hs => hterms s (mem_append_left _ hs)
    have ht := (hterms t (by simp)).keys dates now
    rw [encodedKeys_concat, addKeys]
    split
    · exact ht
    · split
      · exact Key.allWellFormed_append ih ht
      · next hkeys _ =>
          have hboth := Key.allWellFormed_append ih ht
          have hne : encodedKeys dates now terms ≠ [] := by
            intro hnil
            rw [hnil] at hkeys
            exact hkeys rfl
          obtain ⟨left, right, rest, heq⟩ := two_keys hne (keys_ne_nil t.test)
          rw [heq] at hboth ⊢
          exact ⟨⟨⟨hboth.1, hboth.2.1⟩, hboth.2.2⟩, trivial⟩

/-! ## The value of the terms -/

theorem endsMatched_plain (h : Plain terms) (depth : ℕ) : endsMatched depth terms = true := by
  induction terms with
  | nil => rfl
  | cons t terms ih =>
    obtain ⟨-, hbegins, hends⟩ := h t mem_cons_self
    rw [endsMatched, hbegins, hends]
    exact ih fun s hs => h s (mem_cons_of_mem t hs)

theorem readGroups_plain (h : Plain terms) (xs : List (Operand (SearchTerm ImapTest))) :
    readGroups terms xs [] = xs ++ operands terms := by
  induction terms generalizing xs with
  | nil => exact (append_nil xs).symm
  | cons t terms ih =>
    obtain ⟨-, hbegins, hends⟩ := h t mem_cons_self
    have hplain : t.ungrouped = t := by
      rw [SearchTerm.ungrouped, ← hbegins]
    have ih := ih fun s hs => h s (mem_cons_of_mem t hs)
    rw [readGroups, hbegins, hends, hplain]
    exact (ih _).trans (append_assoc xs _ _)

/-- Terms that are not grouped have the value of their operands. -/
theorem matchTerms_plain (h : Plain terms) (matchesTest : ImapTest → Bool) :
    (matchTerms matchesTest terms).2 =
      values (processSearchTerm matchesTest) (operands terms) := by
  obtain ⟨expr, hrun, hexpr⟩ := constructExpressionTree_standsFor terms (endsMatched_plain h 0)
  rw [matchTerms, hrun, hexpr.value, readGroups_plain h, nil_append]

theorem agrees_holds (h : Plain terms) :
    Agrees dates now v (processSearchTerm (holds dates now v)) terms := by
  intro t ht
  rw [processSearchTerm, (h t ht).1, Bool.false_or]

/-! ## The server's answer -/

/-- The text for a server is UNDELETED and keys that have, whatever the keys of the terms say of
a message, the value of the terms. -/
def FindsTheSame (dates : DateFormat) (now : ℤ) (terms : List (SearchTerm ImapTest)) : Prop :=
  ∃ text keys, encodeImap dates now terms = some text ∧
    SearchKeys.parse text = some (.basic "UNDELETED".toList [] :: keys) ∧
    ∀ v, valueAll v keys = (matchTerms (holds dates now v) terms).2

theorem findsTheSame_iff (hplain : Plain terms) (hterms : ∀ t ∈ terms, t.test.Encodable) :
    FindsTheSame dates now terms ↔ ∀ v, valueAll v (encodedKeys dates now terms) =
      values (processSearchTerm (holds dates now v)) (operands terms) := by
  have htext := encodeImap_eq dates now (fun t ht => (hplain t ht).1) hterms
  have hparse := parse_textKeys (.basic "UNDELETED".toList [])
    (encodedKeys dates now terms)
    ⟨⟨rfl, fun arg harg => by cases harg⟩, allWellFormed_encodedKeys hterms⟩
  constructor
  · intro h v
    obtain ⟨text, keys, hencode, hread, hvalue⟩ := h
    obtain rfl := Option.some.inj (htext.symm.trans hencode)
    obtain rfl := (cons_eq_cons.mp (Option.some.inj (hparse.symm.trans hread))).2
    rw [hvalue, matchTerms_plain hplain]
  · intro h
    refine ⟨_, _, htext, hparse, fun v => ?_⟩
    rw [h, matchTerms_plain hplain]

/-- The server finds what the terms say when each OR joins two keys, and, for terms that do not
test the same, only then. -/
theorem findsTheSame_of_orsAreBinary (dates : DateFormat) (now : ℤ)
    (terms : List (SearchTerm ImapTest)) (hplain : Plain terms)
    (hterms : ∀ t ∈ terms, t.test.Encodable) :
    (OrsAreBinary terms → FindsTheSame dates now terms) ∧
      (Independent dates now terms → FindsTheSame dates now terms → OrsAreBinary terms) := by
  rw [findsTheSame_iff hplain hterms]
  constructor
  · intro hbinary v
    exact valueAll_encodedKeys hbinary (agrees_holds hplain)
  · intro hindependent hsame
    apply Classical.byContradiction
    intro hbinary
    obtain ⟨ps, hps, hdiffers⟩ := exists_differs dates now hbinary
    obtain ⟨v, hgiven⟩ := exists_given (hps ▸ hindependent)
    exact hdiffers v _ (agrees_holds hplain) hgiven (hsame v)

def oneDay : DateFormat where
  format _ := "01-Jan-2024".toList
  isWord _ := ⟨by decide, by decide⟩

def letterTerm (attrib : SearchAttrib) (letter : Char) (booleanAnd : Bool) :
    SearchTerm ImapTest :=
  { test := { attrib := attrib, op := .contains, arbitraryHeader := [], str := [letter],
              date := 0, age := 0, size := 0, status := 0 }
    matchAll := false, booleanAnd := booleanAnd, beginsGrouping := false, endsGrouping := false }

theorem encodable_letterTerm {attrib : SearchAttrib} (hattrib : attrib ∈ [.subject, .sender, .body])
    {letter : Char} (hletter : letter ∈ ['a', 'b', 'c']) (booleanAnd : Bool) :
    (letterTerm attrib letter booleanAnd).test.Encodable := by
  have hascii : ∀ c ∈ [letter], c.toNat < 128 ∧ c ≠ '\r' ∧ c ≠ '\n' := by
    intro c hc
    obtain rfl := mem_singleton.mp hc
    revert c
    decide
  constructor
  · simp only [mem_cons, not_mem_nil, or_false] at hattrib
    rcases hattrib with rfl | rfl | rfl
    · exact Option.some_ne_none _
    · exact Option.some_ne_none _
    · exact Option.some_ne_none _
  · intro _
    exact cons_ne_nil _ _
  · intro hkeywords
    have heq : attrib = .keywords := hkeywords
    rw [heq] at hattrib
    exact absurd hattrib (by decide)
  · intro _ _ c hc
    exact (hascii c hc).2
  · intro _ h
    obtain ⟨c, hc, hle⟩ := h
    exact absurd (hascii c hc).1 (Nat.not_lt.mpr hle)
  · intro _ c hc
    cases hc

/-- The subject or the sender, and the body. -/
theorem findsTheSame_or_and :
    FindsTheSame oneDay 0 [letterTerm .subject 'a' true, letterTerm .sender 'b' false,
      letterTerm .body 'c' true] := by
  have hplain : Plain [letterTerm .subject 'a' true, letterTerm .sender 'b' false,
      letterTerm .body 'c' true] := by decide
  have hterms : ∀ t ∈ [letterTerm .subject 'a' true, letterTerm .sender 'b' false,
      letterTerm .body 'c' true], t.test.Encodable := by
    intro t ht
    simp only [mem_cons, not_mem_nil, or_false] at ht
    rcases ht with rfl | rfl | rfl
    · exact encodable_letterTerm (by decide) (by decide) true
    · exact encodable_letterTerm (by decide) (by decide) false
    · exact encodable_letterTerm (by decide) (by decide) true
  refine (findsTheSame_of_orsAreBinary oneDay 0 _ hplain hterms).1 ?_
  intro before s t after heq ht
  match before with
  | [] =>
    cases heq
    exact ⟨rfl, Or.inr rfl, fun _ => rfl⟩
  | [_] =>
    cases heq
    cases ht
  | _ :: _ :: before =>
    have hlen := congrArg length heq
    simp only [length_cons, length_append, length_nil] at hlen
    omega

/-- The subject and the sender, or the body: a message in whose body the letter is is not found. -/
theorem not_findsTheSame_and_or :
    ¬ FindsTheSame oneDay 0 [letterTerm .subject 'a' true, letterTerm .sender 'b' true,
      letterTerm .body 'c' false] := by
  have hplain : Plain [letterTerm .subject 'a' true, letterTerm .sender 'b' true,
      letterTerm .body 'c' false] := by decide
  have hterms : ∀ t ∈ [letterTerm .subject 'a' true, letterTerm .sender 'b' true,
      letterTerm .body 'c' false], t.test.Encodable := by
    intro t ht
    simp only [mem_cons, not_mem_nil, or_false] at ht
    rcases ht with rfl | rfl | rfl
    · exact encodable_letterTerm (by decide) (by decide) true
    · exact encodable_letterTerm (by decide) (by decide) true
    · exact encodable_letterTerm (by decide) (by decide) false
  rw [findsTheSame_iff hplain hterms]
  intro h
  have hbody := h fun name _ => name = "BODY".toList
  revert hbody
  decide

end CommCentral.Search
