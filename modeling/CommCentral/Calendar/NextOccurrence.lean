import CommCentral.Calendar.Expansion
import Mathlib.Data.List.Induction

/-!
# The next occurrence

`getNextOccurrence` searches forward, in rounds.  A round asks every positive
rule for its next date, and another round follows only when every rule gives a
date that is *invalid*: it was removed or has an exception.  So a rule whose
date is invalid beside a valid one of another rule is not asked again, although
its next date may come first.  `SearchesSafely` says that this does not happen,
and that three smaller things do not:

* the earliest exception is returned without a look at the negative dates,
* the negative dates before the start of the base item are not known,
* the search gives up, exceptions included, when there is no positive rule and
  every positive date is invalid.

The search finds the first occurrence of the expansion after a time exactly when
it is safe there (`getNextOccurrence_iff`).
-/

namespace CommCentral.Calendar

open List

/-! ## Sorted dates -/

section Sorted

variable {l : List CalDateTime} {d : CalDateTime} {t : ℤ} {k : ℕ}

section

variable (hl : l.Pairwise fun a b => a.toUnixTime < b.toUnixTime)

include hl

theorem filter_lt_eq_drop (hk : l[k]? = some d) :
    l.filter (fun x => d.toUnixTime < x.toUnixTime) = l.drop (k + 1) := by
  induction l generalizing k with
  | nil => simp at hk
  | cons x l ih =>
    obtain ⟨hx, hl⟩ := pairwise_cons.mp hl
    cases k with
    | zero =>
      obtain rfl : x = d := by simpa using hk
      rw [filter_cons_of_neg (by simp)]
      exact filter_eq_self.mpr fun y hy => by simpa using hx y hy
    | succ k =>
      have hlt := hx d (mem_of_getElem? hk)
      rw [filter_cons_of_neg (by simpa using hlt.le), ih hl hk, drop_succ_cons]

theorem find_lt_eq (hk : (l.filter fun x => t < x.toUnixTime)[k]? = some d) :
    l.find? (fun x => d.toUnixTime < x.toUnixTime) =
      (l.filter fun x => t < x.toUnixTime)[k + 1]? := by
  have hd : t < d.toUnixTime := by
    simpa using (mem_filter.mp (mem_of_getElem? hk)).2
  have hsame : l.filter (fun x => d.toUnixTime < x.toUnixTime) =
      (l.filter fun x => t < x.toUnixTime).filter fun x => d.toUnixTime < x.toUnixTime := by
    rw [filter_filter]
    refine filter_congr fun x _ => ?_
    rw [Bool.eq_iff_iff, Bool.and_eq_true, decide_eq_true_eq, decide_eq_true_eq]
    exact ⟨fun hx => ⟨hx, hd.trans hx⟩, fun hx => hx.1⟩
  rw [← head?_filter, hsame, filter_lt_eq_drop (hl.filter _) hk, head?_drop]

theorem exists_append_filter_lt (t : ℤ) :
    ∃ before, l = before ++ l.filter fun x => t < x.toUnixTime := by
  induction l with
  | nil => exact ⟨[], rfl⟩
  | cons x l ih =>
    obtain ⟨hx, hl⟩ := pairwise_cons.mp hl
    obtain ⟨before, hbefore⟩ := ih hl
    cases lt_or_ge t x.toUnixTime with
    | inl hlt =>
      refine ⟨[], ?_⟩
      rw [nil_append, filter_eq_self.mpr]
      intro y hy
      rcases mem_cons.mp hy with rfl | hy
      · simpa using hlt
      · simpa using hlt.trans (hx y hy)
    | inr hge =>
      refine ⟨x :: before, ?_⟩
      rw [filter_cons_of_neg (by simpa using hge), cons_append, ← hbefore]

end

end Sorted

/-- The rule returns its first date after a given one, when it is asked with its start or with
one of its dates. -/
def CalRecurrenceRule.Advances (rule : CalRecurrenceRule) (startDate : CalDateTime)
    (dates : List CalDateTime) : Prop :=
  ∀ searchStart, searchStart = startDate ∨ searchStart ∈ dates →
    ∀ searchDate, searchDate.isDate = false →
      rule.getNextOccurrence searchStart searchDate =
        dates.find? fun date => searchDate.toUnixTime < date.toUnixTime

namespace CalRecurrenceInfo

/-! ## What the search looks at -/

section Search

variable (info : CalRecurrenceInfo) (dates : CalRecurrenceRule → List CalDateTime)
  (aTime : CalDateTime)

def laterDates (rule : CalRecurrenceRule) : List CalDateTime :=
  (dates rule).filter fun date => aTime.toUnixTime < date.toUnixTime

/-- A positive item has nothing for a round: its date is invalid or not after the time, or that
date of the rule which the round asks for is invalid. -/
def Rejected (round : ℕ) : CalRecurrenceItem → Prop
  | .date _ date => aTime.toUnixTime < date.toUnixTime → info.isInvalid date = true
  | .rule _ rule => ∃ date, (laterDates dates aTime rule)[round]? = some date ∧
      info.isInvalid date = true

/-- Another round follows. -/
def Repeats (round : ℕ) : Prop := ∀ ritem ∈ info.mPositiveRules, info.Rejected dates aTime round ritem

def IsLast (round : ℕ) : Prop :=
  (∀ earlier < round, info.Repeats dates aTime earlier) ∧ ¬ info.Repeats dates aTime round

/-- The search comes upon the date in its last round. -/
def Offered (id : CalDateTime) : Prop :=
  info.isInvalid id = false ∧ ∃ ritem ∈ info.mPositiveRules,
    match ritem with
    | .date _ date => id = date ∧ aTime.toUnixTime < date.toUnixTime
    | .rule _ rule => ∃ round, info.IsLast dates aTime round ∧
        (laterDates dates aTime rule)[round]? = some id

/-- The exception is the last one in the map of the earliest ones after the time. -/
def IsFirstException (item : CalOccurrence) : Prop :=
  aTime.toUnixTime < item.startDate.toUnixTime ∧
    ∃ before after, info.mExceptionMap = before ++ item :: after ∧
      (∀ other ∈ before, aTime.toUnixTime < other.startDate.toUnixTime →
        item.startDate.toUnixTime ≤ other.startDate.toUnixTime) ∧
      ∀ other ∈ after, aTime.toUnixTime < other.startDate.toUnixTime →
        item.startDate.toUnixTime < other.startDate.toUnixTime

/-- What makes the search find the first occurrence of the series. -/
structure SearchesSafely : Prop where
  /-- The earliest exception was not removed, unless a date that the search comes upon is
  earlier. -/
  exception : (∃ round, ¬ info.Repeats dates aTime round) → ∀ item,
    info.IsFirstException aTime item →
    (∀ id, info.Offered dates aTime id → item.startDate.toUnixTime ≤ id.toUnixTime) →
      ¬ info.IsRemoved dates item.recurrenceId
  /-- The earliest date that the search comes upon was not removed, unless an exception is not
  later. -/
  date : ∀ id, info.Offered dates aTime id →
    (∀ other, info.Offered dates aTime other → id.toUnixTime ≤ other.toUnixTime) →
    (∀ item ∈ info.mExceptionMap, aTime.toUnixTime < item.startDate.toUnixTime →
      id.toUnixTime < item.startDate.toUnixTime) → ¬ info.IsRemoved dates id
  /-- No rule has a valid date before all that the search comes upon. -/
  rule : ∀ rule, .rule false rule ∈ info.mRecurrenceItems → ∀ id ∈ laterDates dates aTime rule,
    ¬ info.IsRemoved dates id → info.getExceptionFor id = none →
      (∃ other, info.Offered dates aTime other ∧ other.toUnixTime ≤ id.toUnixTime) ∨
        ∃ item ∈ info.mExceptionMap, aTime.toUnixTime < item.startDate.toUnixTime ∧
          item.startDate.toUnixTime ≤ id.toUnixTime
  /-- When the search gives up, all exceptions after the time were removed. -/
  givesUp : (∀ round, info.Repeats dates aTime round) → ∀ item ∈ info.mExceptionMap,
    aTime.toUnixTime < item.startDate.toUnixTime → info.IsRemoved dates item.recurrenceId

def startOf (id : CalDateTime) : ℤ := (info.getOccurrenceFor id).startDate.toUnixTime

/-- A date is before all others, the negative ones and those of the exceptions included. -/
structure IsBeforeAll (early : CalDateTime) : Prop where
  candidates : ∀ id, info.IsCandidate dates id → early.toUnixTime < id.toUnixTime
  exceptions : ∀ item ∈ info.mExceptionMap, early.toUnixTime < item.startDate.toUnixTime ∧
    early.toUnixTime < item.endDate.toUnixTime
  removed : ∀ ritem ∈ info.mNegativeRules, ∀ date, ritem.HasDate dates date →
    early.toUnixTime < date.toUnixTime

/-- The search returns the first occurrence of the expansion after a time, or nothing when there
is none. -/
def FindsFirst (early : CalDateTime) : Prop :=
  ∃ found, info.calculateDates early none 0 = some found ∧
    match info.getNextOccurrence aTime with
    | none => ∀ e ∈ found, e.rstart.compare aTime ≤ 0
    | some item => ∃ e ∈ found, item = info.getOccurrenceFor e.id ∧ e.rstart.compare aTime > 0 ∧
        ∀ f ∈ found, f.rstart.compare aTime > 0 → e.rstart.compare f.rstart ≤ 0

/-- Fewer than a hundred consecutive dates of a rule are removed or have an exception. -/
def FewInvalid : Prop :=
  ∀ rule, .rule false rule ∈ info.mRecurrenceItems → ∀ before block after,
    dates rule = before ++ block ++ after →
    (∀ id ∈ block, info.IsRemoved dates id ∨ (info.getExceptionFor id).isSome = true) →
      block.length < 100

end Search

/-! ## Invalid ids -/

section Invalid

variable {info : CalRecurrenceInfo} {dates : CalRecurrenceRule → List CalDateTime}
  {aTime id : CalDateTime}

/-- What the search relies on: UTC, rules that advance exactly and finite negative rules. -/
structure Searchable (info : CalRecurrenceInfo) (dates : CalRecurrenceRule → List CalDateTime) :
    Prop extends info.InUtc dates where
  advances : ∀ rule, .rule false rule ∈ info.mRecurrenceItems →
    rule.Advances info.mBaseItem.startDate (dates rule)
  finite : ∀ rule, .rule true rule ∈ info.mRecurrenceItems → rule.isFinite = true
  startDate_positive : info.IsPositive dates info.mBaseItem.startDate

/-- The keys of the negative dates from the start of the base item on. -/
theorem Searchable.mem_negMap (h : info.Searchable dates) {key : RidKey} : key ∈ info.negMap ↔
    ∃ ritem ∈ info.mNegativeRules, ∃ n, ritem.HasDate dates n ∧
      n.compare info.mBaseItem.startDate ≥ 0 ∧ getRidKey n = key := by
  simp only [negMap, mem_flatMap, mem_map]
  constructor
  · rintro ⟨ritem, hritem, n, hn, rfl⟩
    have hneg := (mem_filter.mp hritem).1
    obtain ⟨hdate, hge, -⟩ := (h.mem_getOccurrences (b := none) (mem_filter.mp hneg).1
      h.startDate (by simp)).mp hn
    exact ⟨ritem, hneg, n, hdate, hge, rfl⟩
  · rintro ⟨ritem, hneg, n, hdate, hge, rfl⟩
    obtain ⟨hritem, hsign⟩ := mem_filter.mp hneg
    refine ⟨ritem, mem_filter.mpr ⟨hneg, ?_⟩, n,
      (h.mem_getOccurrences (b := none) hritem h.startDate (by simp)).mpr
        ⟨hdate, hge, by simp⟩, rfl⟩
    cases ritem with
    | date => rfl
    | rule isNegative rule =>
      obtain rfl : isNegative = true := hsign
      exact h.finite rule hritem

/-- An id that a negative date from the start of the base item on removes. -/
def RemovedSinceStart (info : CalRecurrenceInfo) (dates : CalRecurrenceRule → List CalDateTime)
    (id : CalDateTime) : Prop :=
  ∃ ritem ∈ info.mNegativeRules, ∃ n, ritem.HasDate dates n ∧
    n.compare info.mBaseItem.startDate ≥ 0 ∧ id.compare n = 0

/-- The text of a negative date is that of the id or of its day. -/
theorem compare_eq_zero_iff_key {n : CalDateTime} (hid : id.isDate = false) : id.compare n = 0 ↔
    getRidKey n = (getRidKey id).firstEight ∨ getRidKey n = getRidKey id := by
  rw [getRidKey_firstEight]
  cases hn : n.isDate with
  | true =>
    rw [compare_of_date hn, cmp_eq_zero, getRidKey_of_date hn]
    cases id with
    | dateTime t => simp [getRidKey, eq_comm]
    | date d => cases hid
  | false =>
    rw [compare_eq_zero_iff hid hn, getRidKey_injective.eq_iff, eq_comm]
    cases n with
    | dateTime t => simp [getRidKey]
    | date d => cases hn

/-- An id is invalid when such a date removes it or it has an exception. -/
theorem Searchable.isInvalid_iff (h : info.Searchable dates) (hid : id.isDate = false) :
    info.isInvalid id = true ↔
      info.RemovedSinceStart dates id ∨ (info.getExceptionFor id).isSome = true := by
  have hday : info.exceptionAt (getRidKey id).firstEight = none := by
    rw [exceptionAt, find?_eq_none]
    intro item hitem
    have hitemid := (h.exceptions item hitem).1
    rw [getRidKey_firstEight]
    cases hrid : item.recurrenceId with
    | dateTime t => simp [getRidKey]
    | date d =>
      rw [hrid] at hitemid
      cases hitemid
  rw [isInvalid, Bool.or_eq_true, hday, Bool.or_eq_true, decide_eq_true_eq, decide_eq_true_eq,
    h.mem_negMap, h.mem_negMap]
  refine or_congr ?_ (by simp [getExceptionFor])
  simp only [RemovedSinceStart, compare_eq_zero_iff_key hid]
  constructor
  · rintro (⟨ritem, hritem, n, hn, hge, hkey⟩ | ⟨ritem, hritem, n, hn, hge, hkey⟩)
    · exact ⟨ritem, hritem, n, hn, hge, .inl hkey⟩
    · exact ⟨ritem, hritem, n, hn, hge, .inr hkey⟩
  · rintro ⟨ritem, hritem, n, hn, hge, hkey | hkey⟩
    · exact .inl ⟨ritem, hritem, n, hn, hge, hkey⟩
    · exact .inr ⟨ritem, hritem, n, hn, hge, hkey⟩

/-- An invalid id was removed or has an exception. -/
theorem Searchable.of_isInvalid (h : info.Searchable dates) (hid : id.isDate = false)
    (hinvalid : info.isInvalid id = true) :
    info.IsRemoved dates id ∨ (info.getExceptionFor id).isSome = true := by
  rcases (h.isInvalid_iff hid).mp hinvalid with ⟨ritem, hritem, n, hn, -, hremoved⟩ | hexception
  · exact .inl ⟨ritem, hritem, n, hn, hremoved⟩
  · exact .inr hexception

end Invalid

/-! ## Rounds -/

section Rounds

variable {info : CalRecurrenceInfo} {dates : CalRecurrenceRule → List CalDateTime}
  {aTime id : CalDateTime} {round : ℕ} {ritem : CalRecurrenceItem}

/-- The next date of an item in a round. -/
def candidate (info : CalRecurrenceInfo) (aTime : CalDateTime) (ritem : CalRecurrenceItem) :
    ℕ → Option CalDateTime
  | 0 => (info.nextDate aTime ritem none).1
  | round + 1 => (info.nextDate aTime ritem (candidate info aTime ritem round)).1

/-- The next date before a round. -/
def previous (info : CalRecurrenceInfo) (aTime : CalDateTime) (round : ℕ)
    (ritem : CalRecurrenceItem) : Option CalDateTime :=
  match round with
  | 0 => none
  | round + 1 => info.candidate aTime ritem round

theorem candidate_eq : info.candidate aTime ritem round =
    (info.nextDate aTime ritem (info.previous aTime round ritem)).1 := by
  cases round <;> rfl

/-- The search for an item counts it as invalid. -/
def Counts (info : CalRecurrenceInfo) (aTime : CalDateTime) (round : ℕ)
    (ritem : CalRecurrenceItem) : Bool :=
  (info.nextDate aTime ritem (info.previous aTime round ritem)).2 ||
    (info.candidate aTime ritem round).any info.isInvalid

theorem nextDate_never {next : Option CalDateTime}
    (h : (info.nextDate aTime ritem next).2 = true) :
    (info.nextDate aTime ritem next).1 = none := by
  cases ritem with
  | date isNegative rdate =>
    rw [nextDate] at h ⊢
    split_ifs at h ⊢
    rfl
  | rule => cases h

/-- The dates that a rule gives in the rounds before the last one, and in that. -/
theorem Searchable.candidate_rule (h : info.Searchable dates) {rule : CalRecurrenceRule}
    (hrule : .rule false rule ∈ info.mPositiveRules) (hTime : aTime.isDate = false)
    (hrepeats : ∀ earlier < round, info.Repeats dates aTime earlier) :
    info.candidate aTime (.rule false rule) round = (laterDates dates aTime rule)[round]? := by
  have hmem := (mem_filter.mp hrule).1
  have hexact := h.rules false rule hmem
  induction round with
  | zero =>
    have hnext := h.advances rule hmem info.mBaseItem.startDate (.inl rfl) aTime hTime
    show rule.getNextOccurrence info.mBaseItem.startDate aTime = _
    rw [hnext, ← head?_filter, head?_eq_getElem?]
    rfl
  | succ round ih =>
    obtain ⟨date, hdate, -⟩ := hrepeats round (Nat.lt_succ_self round) _ hrule
    rw [candidate, ih fun earlier hlt => hrepeats earlier (Nat.lt_succ_of_lt hlt), hdate]
    obtain ⟨hin, hlt⟩ := mem_filter.mp (mem_of_getElem? hdate)
    rw [decide_eq_true_eq] at hlt
    have hisDate := hexact.dateTime date hin
    have hgt : date.compare aTime > 0 := by
      rw [compare_of_dateTime hisDate hTime, cmp_pos]
      exact hlt
    show rule.getNextOccurrence date (if date.compare aTime > 0 then date else aTime) = _
    rw [if_pos hgt, h.advances rule hmem date (.inr hin) date hisDate]
    exact find_lt_eq hexact.sorted hdate

/-- In a round that follows others, an item is counted when it is rejected. -/
theorem Searchable.counts_iff (h : info.Searchable dates) (hritem : ritem ∈ info.mPositiveRules)
    (hTime : aTime.isDate = false) (hrepeats : ∀ earlier < round, info.Repeats dates aTime earlier) :
    info.Counts aTime round ritem = true ↔ info.Rejected dates aTime round ritem := by
  obtain ⟨hmem, hsign⟩ := mem_filter.mp hritem
  cases ritem with
  | rule isNegative rule =>
    obtain rfl : isNegative = false := by simpa [CalRecurrenceItem.isNegative] using hsign
    rw [Counts, h.candidate_rule hritem hTime hrepeats]
    show ((laterDates dates aTime rule)[round]?.any info.isInvalid) = true ↔ _
    rw [Option.any_eq_true]
    rfl
  | date isNegative date =>
    obtain rfl : isNegative = false := by simpa [CalRecurrenceItem.isNegative] using hsign
    have hdate := h.positive date hmem
    have hgt : date.compare aTime > 0 ↔ aTime.toUnixTime < date.toUnixTime := by
      rw [compare_of_dateTime hdate hTime, cmp_pos]
    rw [Counts, candidate_eq, Rejected]
    cases hprev : info.previous aTime round (.date false date) with
    | none =>
      rw [nextDate]
      split_ifs with hin
      · simp [hgt.mp hin.2]
      · have hnot : ¬ aTime.toUnixTime < date.toUnixTime := fun hlt =>
          hin ⟨rfl, hgt.mpr hlt⟩
        simp [hnot]
    | some other =>
      -- not the first round, so the date was rejected before
      refine iff_of_true rfl ?_
      cases round with
      | zero => cases hprev
      | succ round => exact hrepeats 0 (Nat.succ_pos round) _ hritem

/-- A date that an item gives in the last round, when it is valid, is offered. -/
theorem Searchable.offered_iff (h : info.Searchable dates) (hTime : aTime.isDate = false)
    (hlast : info.IsLast dates aTime round) : info.Offered dates aTime id ↔
      info.isInvalid id = false ∧
        ∃ ritem ∈ info.mPositiveRules, info.candidate aTime ritem round = some id := by
  refine and_congr_right fun hvalid => exists_congr fun ritem => and_congr_right fun hritem => ?_
  obtain ⟨hmem, hsign⟩ := mem_filter.mp hritem
  cases ritem with
  | rule isNegative rule =>
    obtain rfl : isNegative = false := by simpa [CalRecurrenceItem.isNegative] using hsign
    rw [h.candidate_rule hritem hTime hlast.1]
    constructor
    · rintro ⟨other, hother, hid⟩
      obtain rfl : other = round := by
        rcases lt_trichotomy other round with hlt | heq | hgt
        · exact absurd (hlast.1 other hlt) hother.2
        · exact heq
        · exact absurd (hother.1 round hgt) hlast.2
      exact hid
    · exact fun hid => ⟨round, hlast, hid⟩
  | date isNegative date =>
    obtain rfl : isNegative = false := by simpa [CalRecurrenceItem.isNegative] using hsign
    have hdate := h.positive date hmem
    have hgt : date.compare aTime > 0 ↔ aTime.toUnixTime < date.toUnixTime := by
      rw [compare_of_dateTime hdate hTime, cmp_pos]
    cases round with
    | zero =>
      show _ ↔ (info.nextDate aTime (.date false date) none).1 = some id
      rw [nextDate]
      split_ifs with hin
      · simp [hgt.mp hin.2, eq_comm]
      · have hnot : ¬ aTime.toUnixTime < date.toUnixTime := fun hlt =>
          hin ⟨rfl, hgt.mpr hlt⟩
        simp [hnot]
    | succ round =>
      have hrejected := hlast.1 0 (Nat.succ_pos round) _ hritem
      constructor
      · rintro ⟨rfl, hlt⟩
        rw [hrejected hlt] at hvalid
        cases hvalid
      · intro hid
        rw [candidate, nextDate] at hid
        split_ifs at hid with hin
        · obtain rfl := Option.some.inj hid
          rw [hrejected (hgt.mp hin.2)] at hvalid
          cases hvalid

end Rounds

/-! ## The end of the search -/

section Rounds

variable {info : CalRecurrenceInfo} {dates : CalRecurrenceRule → List CalDateTime}
  {aTime id : CalDateTime} {round : ℕ} {ritem : CalRecurrenceItem}

def IsEarliest (p : CalDateTime → Prop) : Option CalDateTime → Prop
  | none => ∀ id, ¬ p id
  | some id => p id ∧ ∀ other, p other → id.toUnixTime ≤ other.toUnixTime

theorem IsEarliest.congr {p q : CalDateTime → Prop} {best : Option CalDateTime}
    (h : IsEarliest p best) (hpq : ∀ id, p id ↔ q id) : IsEarliest q best := by
  have heq : p = q := funext fun id => propext (hpq id)
  rwa [← heq]

theorem searchRule_eq (search : Search) :
    info.searchRule aTime search (ritem, info.previous aTime round ritem) =
      ⟨search.nextOccurrences ++ [info.candidate aTime ritem round],
        search.invalidOccurrences + if info.Counts aTime round ritem then 1 else 0,
        match info.candidate aTime ritem round with
        | none => search.minOccRid
        | some rid =>
          if info.isInvalid rid then search.minOccRid
          else if ∀ minOccRid ∈ search.minOccRid, minOccRid.compare rid > 0 then some rid
          else search.minOccRid⟩ := by
  have hnever := @nextDate_never info aTime ritem (info.previous aTime round ritem)
  rw [searchRule, Counts, candidate_eq]
  generalize info.nextDate aTime ritem (info.previous aTime round ritem) = next at hnever
  obtain ⟨next, never⟩ := next
  cases never with
  | true =>
    obtain rfl : next = none := hnever rfl
    rfl
  | false =>
    cases next with
    | none => rfl
    | some next => simp only [Bool.false_or, Bool.false_eq_true, if_false, Nat.zero_add]

/-- What the search knows after some items of a round. -/
theorem foldl_searchRule (ritems : List CalRecurrenceItem) (search : Search)
    (hdates : ∀ ritem ∈ ritems, ∀ id, info.candidate aTime ritem round = some id →
      id.isDate = false) {p : CalDateTime → Prop} (hp : ∀ id, p id → id.isDate = false)
    (hsearch : IsEarliest p search.minOccRid) :
    ∃ minOccRid, (ritems.zip (ritems.map (info.previous aTime round))).foldl
        (info.searchRule aTime) search =
      ⟨search.nextOccurrences ++ ritems.map fun ritem => info.candidate aTime ritem round,
        search.invalidOccurrences + ritems.countP (info.Counts aTime round), minOccRid⟩ ∧
      IsEarliest (fun id => p id ∨ info.isInvalid id = false ∧
        ∃ ritem ∈ ritems, info.candidate aTime ritem round = some id) minOccRid := by
  induction ritems generalizing search p with
  | nil => exact ⟨search.minOccRid, by simp, hsearch.congr fun id => by simp⟩
  | cons ritem ritems ih =>
    obtain ⟨hdate, hdates⟩ := forall_mem_cons.mp hdates
    rw [map_cons, zip_cons_cons, foldl_cons, searchRule_eq]
    -- the earliest date after this item
    obtain ⟨best, hbest, hearliest⟩ : ∃ best, (match info.candidate aTime ritem round with
        | none => search.minOccRid
        | some rid =>
          if info.isInvalid rid then search.minOccRid
          else if ∀ minOccRid ∈ search.minOccRid, minOccRid.compare rid > 0 then some rid
          else search.minOccRid) = best ∧ IsEarliest (fun id => p id ∨
            info.isInvalid id = false ∧ info.candidate aTime ritem round = some id) best := by
      refine ⟨_, rfl, ?_⟩
      cases hcandidate : info.candidate aTime ritem round with
      | none => exact hsearch.congr fun id => by simp
      | some rid =>
        show IsEarliest _ (if info.isInvalid rid then search.minOccRid
          else if ∀ minOccRid ∈ search.minOccRid, minOccRid.compare rid > 0 then some rid
          else search.minOccRid)
        have hrid := hdate rid hcandidate
        split_ifs with hinvalid hfirst
        · refine hsearch.congr fun id => (or_iff_left_of_imp ?_).symm
          rintro ⟨hvalid, heq⟩
          obtain rfl := Option.some.inj heq
          rw [hinvalid] at hvalid
          cases hvalid
        · refine ⟨.inr ⟨by simpa using hinvalid, rfl⟩, fun other hother => ?_⟩
          rcases hother with hother | ⟨-, heq⟩
          · cases hmin : search.minOccRid with
            | none =>
              rw [hmin] at hsearch
              exact absurd hother (hsearch other)
            | some first =>
              rw [hmin] at hsearch hfirst
              have hgt := hfirst first rfl
              rw [compare_of_dateTime (hp first hsearch.1) hrid, cmp_pos] at hgt
              exact hgt.le.trans (hsearch.2 other hother)
          · exact (congrArg CalDateTime.toUnixTime (Option.some.inj heq)).le
        · cases hmin : search.minOccRid with
          | none => exact absurd (by simp [hmin]) hfirst
          | some first =>
            rw [hmin] at hsearch hfirst
            simp only [Option.mem_def, Option.some.injEq, forall_eq'] at hfirst
            rw [compare_of_dateTime (hp first hsearch.1) hrid, cmp_pos, not_lt] at hfirst
            refine ⟨.inl hsearch.1, fun other hother => ?_⟩
            rcases hother with hother | ⟨-, heq⟩
            · exact hsearch.2 other hother
            · obtain rfl := Option.some.inj heq
              exact hfirst
    rw [hbest]
    have hp' : ∀ id, (p id ∨ info.isInvalid id = false ∧
        info.candidate aTime ritem round = some id) → id.isDate = false := by
      rintro id (hid | ⟨-, hid⟩)
      · exact hp id hid
      · exact hdate id hid
    obtain ⟨minOccRid, hfold, hmin⟩ := ih ⟨_, _, best⟩ hdates hp' hearliest
    refine ⟨minOccRid, ?_, hmin.congr fun id => ?_⟩
    · rw [hfold, append_assoc, countP_cons, map_cons, Nat.add_assoc,
        Nat.add_comm (ritems.countP _)]
      rfl
    · simp only [mem_cons, exists_eq_or_imp, and_or_left]
      rw [or_assoc]

/-- A date of a round that is reached has a time. -/
theorem Searchable.candidate_isDate (h : info.Searchable dates) (hTime : aTime.isDate = false)
    (hrepeats : ∀ earlier < round, info.Repeats dates aTime earlier)
    (hritem : ritem ∈ info.mPositiveRules) (hid : info.candidate aTime ritem round = some id) :
    id.isDate = false := by
  obtain ⟨hmem, hsign⟩ := mem_filter.mp hritem
  cases ritem with
  | rule isNegative rule =>
    obtain rfl : isNegative = false := by simpa [CalRecurrenceItem.isNegative] using hsign
    rw [h.candidate_rule hritem hTime hrepeats] at hid
    have hlater := mem_of_getElem? hid
    exact (h.rules false rule hmem).dateTime id (mem_filter.mp hlater).1
  | date isNegative date =>
    obtain rfl : isNegative = false := by simpa [CalRecurrenceItem.isNegative] using hsign
    rw [candidate_eq, nextDate] at hid
    split_ifs at hid with hin
    obtain rfl := Option.some.inj hid
    exact h.positive _ hmem

/-- The rounds go on as long as they repeat, and the last one finds the earliest of the dates
that are offered. -/
theorem Searchable.searchRounds (h : info.Searchable dates) (hTime : aTime.isDate = false)
    (rounds : ℕ) (hrepeats : ∀ earlier < round, info.Repeats dates aTime earlier) :
    info.searchRounds aTime rounds (info.mPositiveRules.map (info.previous aTime round)) none =
        none ∧ (∀ earlier < round + rounds, info.Repeats dates aTime earlier) ∨
      ∃ last minOccRid, info.IsLast dates aTime last ∧
        info.searchRounds aTime rounds (info.mPositiveRules.map (info.previous aTime round)) none =
          some minOccRid ∧ IsEarliest (info.Offered dates aTime) minOccRid := by
  induction rounds generalizing round with
  | zero => exact .inl ⟨rfl, hrepeats⟩
  | succ rounds ih =>
    have hdates : ∀ ritem ∈ info.mPositiveRules, ∀ id,
        info.candidate aTime ritem round = some id → id.isDate = false :=
      fun ritem hritem id hid => h.candidate_isDate hTime hrepeats hritem hid
    obtain ⟨minOccRid, hfold, hmin⟩ := foldl_searchRule info.mPositiveRules ⟨[], 0, none⟩ hdates
      (p := fun _ => False) (fun id hid => hid.elim) fun id hid => hid
    have hcounts : info.mPositiveRules.countP (info.Counts aTime round) =
        info.mPositiveRules.length ↔ info.Repeats dates aTime round := by
      rw [countP_eq_length]
      exact forall₂_congr fun ritem hritem => h.counts_iff hritem hTime hrepeats
    rw [CalRecurrenceInfo.searchRounds, hfold]
    simp only [nil_append, Nat.zero_add, false_or] at hmin ⊢
    split_ifs with hall
    · have hround := hcounts.mp hall
      obtain rfl : minOccRid = none := by
        cases minOccRid with
        | none => rfl
        | some id =>
          obtain ⟨hvalid, ritem, hritem, hid⟩ := hmin.1
          have hcount : info.Counts aTime round ritem = true :=
            (h.counts_iff hritem hTime hrepeats).mpr (hround ritem hritem)
          rw [Counts, hid, Option.any_some, hvalid, Bool.or_false] at hcount
          rw [candidate_eq, nextDate_never hcount] at hid
          cases hid
      have hrepeats' : ∀ earlier < round + 1, info.Repeats dates aTime earlier :=
        fun earlier hlt => by
          rcases Nat.lt_succ_iff_lt_or_eq.mp hlt with hlt | rfl
          · exact hrepeats earlier hlt
          · exact hround
      have hnext := ih hrepeats'
      rw [Nat.add_right_comm] at hnext
      exact hnext
    · have hlast : info.IsLast dates aTime round :=
        ⟨hrepeats, fun hround => hall (hcounts.mpr hround)⟩
      exact .inr ⟨round, minOccRid, hlast, rfl,
        hmin.congr fun id => (h.offered_iff hTime hlast).symm⟩

/-- When some round does not repeat, it is among the first ones. -/
theorem Searchable.exists_last (h : info.Searchable dates) (hfew : info.FewInvalid dates)
    (hsome : ∃ round, ¬ info.Repeats dates aTime round) :
    ∃ round < 101, ¬ info.Repeats dates aTime round := by
  by_contra hnone
  push Not at hnone
  obtain ⟨round, hround⟩ := hsome
  rw [Repeats] at hround
  push Not at hround
  obtain ⟨ritem, hritem, hrejected⟩ := hround
  obtain ⟨hmem, hsign⟩ := mem_filter.mp hritem
  cases ritem with
  | date => exact hrejected fun hlt => hnone 0 (by omega) _ hritem hlt
  | rule isNegative rule =>
    obtain rfl : isNegative = false := by simpa [CalRecurrenceItem.isNegative] using hsign
    -- its first hundred dates would be invalid
    have hexact := h.rules false rule hmem
    obtain ⟨before, hbefore⟩ := exists_append_filter_lt hexact.sorted aTime.toUnixTime
    have hinvalid : ∀ k < 100, ∃ date, (laterDates dates aTime rule)[k]? = some date ∧
        info.isInvalid date = true := fun k hk => hnone k (by omega) _ hritem
    have hlength : 100 ≤ (laterDates dates aTime rule).length := by
      obtain ⟨date, hdate, -⟩ := hinvalid 99 (by omega)
      have hlt := (List.getElem?_eq_some_iff.mp hdate).1
      omega
    have hblock := hfew rule hmem before ((laterDates dates aTime rule).take 100)
      ((laterDates dates aTime rule).drop 100)
      (by rw [append_assoc, take_append_drop]; exact hbefore) fun id hid => by
        obtain ⟨k, hk, rfl⟩ := mem_take_iff_getElem.mp hid
        obtain ⟨date, hdate, hdateinvalid⟩ := hinvalid k (by omega)
        have hlt : k < (laterDates dates aTime rule).length := by omega
        rw [List.getElem?_eq_getElem hlt, Option.some.injEq] at hdate
        rw [hdate]
        have hin := getElem_mem hlt
        rw [hdate] at hin
        exact h.of_isInvalid (hexact.dateTime date (mem_filter.mp hin).1) hdateinvalid
    rw [length_take, Nat.min_eq_left hlength] at hblock
    exact Nat.lt_irrefl _ hblock

end Rounds

/-! ## Exceptions -/

section Exceptions

variable {info : CalRecurrenceInfo} {dates : CalRecurrenceRule → List CalDateTime}
  {aTime id : CalDateTime}

/-- The loop over the exceptions keeps the earliest date, or finds the last one of the earliest
exceptions, when that is not later. -/
theorem foldl_earlierException (hTime : aTime.isDate = false) (items : List CalOccurrence)
    (hitems : ∀ item ∈ items, item.startDate.isDate = false)
    (best : Option (CalDateTime × CalDateTime)) (hbest : ∀ x ∈ best, x.2.isDate = false) :
    items.foldl (earlierException aTime) best = best ∧
        (∀ item ∈ items, aTime.toUnixTime < item.startDate.toUnixTime →
          ∃ x ∈ best, x.2.toUnixTime < item.startDate.toUnixTime) ∨
      ∃ item before after, items = before ++ item :: after ∧
        items.foldl (earlierException aTime) best = some (item.recurrenceId, item.startDate) ∧
        aTime.toUnixTime < item.startDate.toUnixTime ∧
        (∀ x ∈ best, item.startDate.toUnixTime ≤ x.2.toUnixTime) ∧
        (∀ other ∈ before, aTime.toUnixTime < other.startDate.toUnixTime →
          item.startDate.toUnixTime ≤ other.startDate.toUnixTime) ∧
        ∀ other ∈ after, aTime.toUnixTime < other.startDate.toUnixTime →
          item.startDate.toUnixTime < other.startDate.toUnixTime := by
  induction items using reverseRecOn with
  | nil => exact .inl ⟨rfl, fun item hitem => by cases hitem⟩
  | append_singleton items last ih =>
    have hlast := hitems last (by simp)
    have hgt : last.startDate.compare aTime > 0 ↔
        aTime.toUnixTime < last.startDate.toUnixTime := by
      rw [compare_of_dateTime hlast hTime, cmp_pos]
    have hle : ∀ x : CalDateTime × CalDateTime, x.2.isDate = false →
        (last.startDate.compare x.2 ≤ 0 ↔
          last.startDate.toUnixTime ≤ x.2.toUnixTime) := fun x hx => by
      rw [compare_of_dateTime hlast hx, cmp_nonpos]
    rw [foldl_append, foldl_cons, earlierException]
    rcases ih fun item hitem => hitems item (by simp [hitem]) with
      ⟨hfold, hlater⟩ | ⟨item, before, after, rfl, hfold, hitem, hitembest, hbefore, hafter⟩
    · rw [hfold]
      split_ifs with hearlier
      · refine .inr ⟨last, items, [], rfl, rfl, hgt.mp hearlier.1,
          fun x hx => (hle x (hbest x hx)).mp (hearlier.2 x hx), fun other hother hotherlt => ?_,
          fun other hother => by cases hother⟩
        obtain ⟨x, hx, hlt⟩ := hlater other hother hotherlt
        exact ((hle x (hbest x hx)).mp (hearlier.2 x hx)).trans hlt.le
      · refine .inl ⟨rfl, fun other hother hotherlt => ?_⟩
        rcases mem_append.mp hother with hother | hother
        · exact hlater other hother hotherlt
        · obtain rfl := mem_singleton.mp hother
          by_contra hnone
          push Not at hnone
          exact hearlier ⟨hgt.mpr hotherlt, fun x hx => (hle x (hbest x hx)).mpr (hnone x hx)⟩
    · rw [hfold]
      have hitemdate := hitems item (by simp)
      split_ifs with hearlier
      · have hlastle := (hle (item.recurrenceId, item.startDate) hitemdate).mp
          (hearlier.2 _ rfl)
        refine .inr ⟨last, before ++ item :: after, [], rfl, rfl, hgt.mp hearlier.1,
          fun x hx => hlastle.trans (hitembest x hx), fun other hother hotherlt => ?_,
          fun other hother => by cases hother⟩
        refine hlastle.trans ?_
        rcases mem_append.mp hother with hother | hother
        · exact hbefore other hother hotherlt
        · rcases mem_cons.mp hother with rfl | hother
          · exact le_rfl
          · exact (hafter other hother hotherlt).le
      · refine .inr ⟨item, before, after ++ [last], by simp, rfl, hitem, hitembest, hbefore,
          fun other hother hotherlt => ?_⟩
        rcases mem_append.mp hother with hother | hother
        · exact hafter other hother hotherlt
        · obtain rfl := mem_singleton.mp hother
          by_contra hnotlt
          refine hearlier ⟨hgt.mpr hotherlt, fun x hx => ?_⟩
          obtain rfl := Option.some.inj hx
          exact (hle _ hitemdate).mpr (not_lt.mp hnotlt)

theorem getOccurrenceFor_recurrenceId : (info.getOccurrenceFor id).recurrenceId = id := by
  rw [getOccurrenceFor]
  cases hexception : info.getExceptionFor id with
  | none => rfl
  | some item => exact (getExceptionFor_eq_some_iff.mp hexception).2

theorem startOf_exception {item : CalOccurrence} (hitem : item ∈ info.mExceptionMap) :
    info.startOf item.recurrenceId = item.startDate.toUnixTime := by
  rw [startOf, getOccurrenceFor, getExceptionFor_eq_some_iff.mpr ⟨hitem, rfl⟩, Option.getD_some]

/-- The start of an occurrence without an exception. -/
theorem startOf_none (hnone : info.getExceptionFor id = none) :
    info.startOf id = id.toUnixTime := by
  rw [startOf, getOccurrenceFor, hnone]
  rfl

/-- What is offered is a positive date after the time, without an exception. -/
theorem Searchable.of_offered (h : info.Searchable dates) (hid : info.Offered dates aTime id) :
    info.IsPositive dates id ∧ aTime.toUnixTime < id.toUnixTime ∧
      info.getExceptionFor id = none := by
  obtain ⟨hvalid, ritem, hritem, hoffered⟩ := hid
  obtain ⟨hpositive, hlt⟩ : info.IsPositive dates id ∧ aTime.toUnixTime < id.toUnixTime := by
    cases ritem with
    | date isNegative date =>
      obtain ⟨rfl, hlt⟩ := hoffered
      exact ⟨⟨_, hritem, rfl⟩, hlt⟩
    | rule isNegative rule =>
      obtain ⟨round, -, hround⟩ := hoffered
      obtain ⟨hmem, hlt⟩ := mem_filter.mp (mem_of_getElem? hround)
      exact ⟨⟨_, hritem, hmem⟩, by simpa using hlt⟩
  refine ⟨hpositive, hlt, ?_⟩
  have hnot := (h.isInvalid_iff (h.positive_isDate hpositive)).not
  rw [hvalid] at hnot
  simpa using (not_or.mp (hnot.mp (by simp))).2

/-- The search gives up with nothing, or returns what comes first of the dates that are offered
and the exceptions after the time. -/
theorem Searchable.getNextOccurrence_cases (h : info.Searchable dates)
    (hfew : info.FewInvalid dates) (hTime : aTime.isDate = false) :
    (∀ round, info.Repeats dates aTime round) ∧ info.getNextOccurrence aTime = none ∨
    (∃ round, ¬ info.Repeats dates aTime round) ∧
      (info.getNextOccurrence aTime = none ∧ (∀ id, ¬ info.Offered dates aTime id) ∧
          (∀ item ∈ info.mExceptionMap, ¬ aTime.toUnixTime < item.startDate.toUnixTime) ∨
        (∃ id, info.getNextOccurrence aTime = some (info.getOccurrenceFor id) ∧
          info.Offered dates aTime id ∧
          (∀ other, info.Offered dates aTime other → id.toUnixTime ≤ other.toUnixTime) ∧
          ∀ item ∈ info.mExceptionMap, aTime.toUnixTime < item.startDate.toUnixTime →
            id.toUnixTime < item.startDate.toUnixTime) ∨
        ∃ item, info.getNextOccurrence aTime =
            some (info.getOccurrenceFor item.recurrenceId) ∧
          info.IsFirstException aTime item ∧
          ∀ id, info.Offered dates aTime id → item.startDate.toUnixTime ≤ id.toUnixTime) := by
  have hrounds := @Searchable.searchRounds info dates aTime 0 h hTime 101 fun earlier hlt => by
    cases hlt
  have hexceptions : ∀ item ∈ info.mExceptionMap, item.startDate.isDate = false :=
    fun item hitem => (h.exceptions item hitem).2
  rw [show info.mPositiveRules.map (info.previous aTime 0) =
    info.mPositiveRules.map fun _ => none from rfl] at hrounds
  rcases hrounds with ⟨hnone, hall⟩ | ⟨last, minOccRid, hlast, hsome, hmin⟩
  · refine .inl ⟨fun round => ?_, by rw [getNextOccurrence, hnone]; rfl⟩
    by_contra hround
    obtain ⟨early, hearly, hnot⟩ := h.exists_last hfew ⟨round, hround⟩
    exact hnot (hall early (by omega))
  · refine .inr ⟨⟨last, hlast.2⟩, ?_⟩
    have hminDate : ∀ x ∈ minOccRid.map fun rid => (rid, rid), x.2.isDate = false := by
      intro x hx
      obtain ⟨rid, rfl, rfl⟩ := Option.map_eq_some_iff.mp hx
      exact h.positive_isDate (h.of_offered hmin.1).1
    have hfold := foldl_earlierException hTime info.mExceptionMap hexceptions
      (minOccRid.map fun rid => (rid, rid)) hminDate
    rw [getNextOccurrence, hsome, Option.bind_some]
    rcases hfold with ⟨hfold, hlater⟩ |
      ⟨item, before, after, hmap, hfold, hitem, hitemmin, hbefore, hafter⟩
    · rw [hfold]
      cases minOccRid with
      | none =>
        refine .inl ⟨rfl, hmin, fun item hitem hlt => ?_⟩
        obtain ⟨x, hx, -⟩ := hlater item hitem hlt
        cases hx
      | some rid =>
        refine .inr (.inl ⟨rid, rfl, hmin.1, hmin.2, fun item hitem hlt => ?_⟩)
        obtain ⟨x, hx, hxlt⟩ := hlater item hitem hlt
        obtain rfl := Option.some.inj hx
        exact hxlt
    · rw [hfold]
      refine .inr (.inr ⟨item, rfl, ⟨hitem, before, after, hmap, hbefore, hafter⟩, fun id hid => ?_⟩)
      cases minOccRid with
      | none => exact absurd hid (hmin id)
      | some rid => exact (hitemmin (rid, rid) rfl).trans (hmin.2 id hid)

end Exceptions

/-! ## The first occurrence -/

section First

variable {info : CalRecurrenceInfo} {dates : CalRecurrenceRule → List CalDateTime}
  {aTime early id : CalDateTime}

/-- The expansion from before all dates on has the ids of the series. -/
theorem Searchable.expandsAll (h : info.Searchable dates)
    (hearly : info.IsBeforeAll dates early) :
    ∃ found, info.calculateDates early none 0 = some found ∧
      (∀ e ∈ found, e.rstart.toUnixTime = info.startOf e.id ∧ e.rstart.isDate = false) ∧
      ∀ id, id ∈ found.map RidDate.id ↔ info.InSeries dates id := by
  have hwindow : ∀ id, info.IsCandidate dates id → info.InWindow early none id :=
    fun id hid => by
      cases hexception : info.getExceptionFor id with
      | none =>
        have hlt := hearly.candidates id hid
        have hduration := h.duration
        exact (inWindow_of_none (h.toInUtc.candidate_isDate hid) hexception).mpr
          ⟨by simp, .inl (by omega)⟩
      | some item =>
        obtain ⟨hstart, hend⟩ :=
          hearly.exceptions item (getExceptionFor_eq_some_iff.mp hexception).1
        rw [inWindow_of_some hexception, CalEvent.InRange]
        split_ifs
        · exact ⟨hstart.le, by simp⟩
        · exact ⟨by simp, hend⟩
  have hsafe : info.ExpandsSafely dates early none := fun id hid _ => by
    constructor
    · rintro ⟨ritem, hritem, n, hn, hremoved⟩
      refine .inl ⟨ritem, hritem, n, hn, hremoved, ?_, by simp⟩
      have hlt := hearly.removed ritem hritem n hn
      have hduration := h.duration
      have hsearch := @searchStart_toUnixTime info early
      cases hdate : n.isDate with
      | false =>
        rw [compare_of_dateTime hdate searchStart_isDate, cmp_nonneg]
        omega
      | true =>
        have hle : (info.searchStart early).day ≤ n.day := by
          cases hstart : info.searchStart early with
          | date d =>
            have hisDate := @searchStart_isDate info early
            rw [hstart] at hisDate
            cases hisDate
          | dateTime t =>
            cases n with
            | dateTime s => cases hdate
            | date d =>
              rw [hstart] at hsearch
              simp only [CalDateTime.toUnixTime, CalDateTime.day] at hsearch hlt ⊢
              omega
        rw [CalDateTime.compare, hdate, Bool.true_or, if_pos rfl, cmp_nonneg]
        exact hle
    · intro hskip
      have hlt := hearly.candidates id hid
      have heq := hskip.2.1
      omega
  obtain ⟨found, hfound, -, -, hstart, hmem⟩ := h.expandsExactly_iff.mpr hsafe
  obtain ⟨found', hfound', hchron, -⟩ := @InUtc.calculateDates_spec info dates early none h.toInUtc
  obtain rfl := Option.some.inj (hfound.symm.trans hfound')
  refine ⟨found, hfound, fun e he => ⟨by rw [hstart e he]; rfl, hchron.dateTime e he⟩, fun id => ?_⟩
  rw [hmem]
  exact ⟨fun hid => hid.1, fun hid => ⟨hid, hwindow id hid.1⟩⟩

/-- The search finds the first occurrence, in terms of the series. -/
theorem Searchable.findsFirst_iff (h : info.Searchable dates) (hTime : aTime.isDate = false)
    (hearly : info.IsBeforeAll dates early) : info.FindsFirst aTime early ↔
      match info.getNextOccurrence aTime with
      | none => ∀ id, info.InSeries dates id → info.startOf id ≤ aTime.toUnixTime
      | some item => ∃ id, info.InSeries dates id ∧ item = info.getOccurrenceFor id ∧
          aTime.toUnixTime < info.startOf id ∧ ∀ other, info.InSeries dates other →
            aTime.toUnixTime < info.startOf other → info.startOf id ≤ info.startOf other := by
  obtain ⟨found, hfound, hstart, hmem⟩ := h.expandsAll hearly
  have hcompare : ∀ e ∈ found, e.rstart.compare aTime =
      CalDateTime.cmp (info.startOf e.id) aTime.toUnixTime := fun e he => by
    rw [compare_of_dateTime (hstart e he).2 hTime, (hstart e he).1]
  have hentry : ∀ id, info.InSeries dates id → ∃ e ∈ found, e.id = id := fun id hid =>
    mem_map.mp ((hmem id).mpr hid)
  have hseries : ∀ e ∈ found, info.InSeries dates e.id := fun e he =>
    (hmem e.id).mp (mem_map_of_mem he)
  rw [FindsFirst, hfound]
  simp only [Option.some.injEq, exists_eq_left']
  cases info.getNextOccurrence aTime with
  | none =>
    constructor
    · intro hnone id hid
      obtain ⟨e, he, rfl⟩ := hentry id hid
      simpa only [hcompare e he, cmp_nonpos] using hnone e he
    · intro hnone e he
      rw [hcompare e he, cmp_nonpos]
      exact hnone e.id (hseries e he)
  | some item =>
    constructor
    · rintro ⟨e, he, hitem, hgt, hfirst⟩
      rw [hcompare e he, cmp_pos] at hgt
      refine ⟨e.id, hseries e he, hitem, hgt, fun other hother hlt => ?_⟩
      obtain ⟨f, hf, rfl⟩ := hentry other hother
      have hle := hfirst f hf (by rw [hcompare f hf, cmp_pos]; exact hlt)
      rw [compare_of_dateTime (hstart e he).2 (hstart f hf).2, cmp_nonpos, (hstart e he).1,
        (hstart f hf).1] at hle
      exact hle
    · rintro ⟨id, hid, hitem, hgt, hfirst⟩
      obtain ⟨e, he, rfl⟩ := hentry id hid
      refine ⟨e, he, hitem, by rw [hcompare e he, cmp_pos]; exact hgt, fun f hf hlt => ?_⟩
      rw [hcompare f hf, cmp_pos] at hlt
      rw [compare_of_dateTime (hstart e he).2 (hstart f hf).2, cmp_nonpos, (hstart e he).1,
        (hstart f hf).1]
      exact hfirst f.id (hseries f hf) hlt

end First

/-! ## The search is right when it is safe -/

section Safe

variable {info : CalRecurrenceInfo} {dates : CalRecurrenceRule → List CalDateTime}
  {aTime early id : CalDateTime}

theorem not_rule_of_repeats (hall : ∀ round, info.Repeats dates aTime round)
    {rule : CalRecurrenceRule} (hrule : .rule false rule ∈ info.mRecurrenceItems) : False := by
  obtain ⟨date, hdate, -⟩ := hall (laterDates dates aTime rule).length _
    (mem_filter.mpr ⟨hrule, rfl⟩)
  have hlt := (List.getElem?_eq_some_iff.mp hdate).1
  exact Nat.lt_irrefl _ hlt

theorem not_offered_of_repeats (hall : ∀ round, info.Repeats dates aTime round) :
    ¬ info.Offered dates aTime id := by
  rintro ⟨hvalid, ritem, hritem, hoffered⟩
  cases ritem with
  | date isNegative date =>
    obtain ⟨rfl, hlt⟩ := hoffered
    rw [hall 0 _ hritem hlt] at hvalid
    cases hvalid
  | rule isNegative rule =>
    obtain ⟨round, hlast, -⟩ := hoffered
    exact hlast.2 (hall round)

/-- A positive date after the time that is not removed and has no exception is offered, unless a
rule gives it. -/
theorem Searchable.offered_or_later (h : info.Searchable dates) (hid : info.IsPositive dates id)
    (hlt : aTime.toUnixTime < id.toUnixTime) (hnot : ¬ info.IsRemoved dates id)
    (hnone : info.getExceptionFor id = none) :
    info.Offered dates aTime id ∨
      ∃ rule, .rule false rule ∈ info.mRecurrenceItems ∧ id ∈ laterDates dates aTime rule := by
  have hvalid : info.isInvalid id = false := by
    rw [← Bool.not_eq_true]
    intro hinvalid
    rcases h.of_isInvalid (h.positive_isDate hid) hinvalid with hremoved | hexception
    · exact hnot hremoved
    · rw [hnone] at hexception
      cases hexception
  obtain ⟨ritem, hritem, hdate⟩ := hid
  obtain ⟨hmem, hsign⟩ := mem_filter.mp hritem
  cases ritem with
  | date isNegative date =>
    obtain rfl : id = date := hdate
    exact .inl ⟨hvalid, _, hritem, rfl, hlt⟩
  | rule isNegative rule =>
    obtain rfl : isNegative = false := by simpa [CalRecurrenceItem.isNegative] using hsign
    exact .inr ⟨rule, hmem, mem_filter.mpr ⟨hdate, by simpa using hlt⟩⟩

/-- An id of the series is that of an exception or a positive date without one. -/
theorem Searchable.series_cases (h : info.Searchable dates) (hid : info.InSeries dates id) :
    (∃ item ∈ info.mExceptionMap, id = item.recurrenceId) ∨
      info.IsPositive dates id ∧ info.getExceptionFor id = none := by
  cases hexception : info.getExceptionFor id with
  | some item =>
    obtain ⟨hitem, rfl⟩ := getExceptionFor_eq_some_iff.mp hexception
    exact .inl ⟨item, hitem, rfl⟩
  | none =>
    rcases hid.1 with rfl | hpositive | ⟨item, hitem, rfl⟩
    · exact .inr ⟨h.startDate_positive, rfl⟩
    · exact .inr ⟨hpositive, rfl⟩
    · exact .inl ⟨item, hitem, rfl⟩

section

variable {item other : CalOccurrence} (hitem : info.IsFirstException aTime item)

include hitem

theorem IsFirstException.unique (hother : info.IsFirstException aTime other) : item = other := by
  obtain ⟨hlt, before, after, hmap, hbefore, hafter⟩ := hitem
  obtain ⟨hlt', before', after', hmap', hbefore', hafter'⟩ := hother
  rw [hmap] at hmap'
  rcases append_eq_append_iff.mp hmap' with ⟨mid, rfl, hmid⟩ | ⟨mid, rfl, hmid⟩
  · cases mid with
    | nil => exact (cons.inj hmid).1
    | cons x mid =>
      obtain ⟨rfl, rfl⟩ := cons.inj hmid
      have hle := hbefore' item (by simp) hlt
      have hgt := hafter other (by simp) hlt'
      omega
  · cases mid with
    | nil => exact (cons.inj hmid).1.symm
    | cons x mid =>
      obtain ⟨rfl, rfl⟩ := cons.inj hmid
      have hle := hbefore other (by simp) hlt'
      have hgt := hafter' item (by simp) hlt
      omega

/-- The first exception is not later than any after the time. -/
theorem IsFirstException.le (hother : other ∈ info.mExceptionMap)
    (hlt : aTime.toUnixTime < other.startDate.toUnixTime) :
    item.startDate.toUnixTime ≤ other.startDate.toUnixTime := by
  obtain ⟨-, before, after, hmap, hbefore, hafter⟩ := hitem
  rw [hmap] at hother
  rcases mem_append.mp hother with hother | hother
  · exact hbefore other hother hlt
  · rcases mem_cons.mp hother with rfl | hother
    · exact le_rfl
    · exact (hafter other hother hlt).le

end

theorem IsFirstException.mem {item : CalOccurrence} (hitem : info.IsFirstException aTime item) :
    item ∈ info.mExceptionMap := by
  obtain ⟨-, before, after, hmap, -⟩ := hitem
  rw [hmap]
  simp

theorem getOccurrenceFor_injective {other : CalDateTime}
    (h : info.getOccurrenceFor id = info.getOccurrenceFor other) : id = other := by
  rw [← @getOccurrenceFor_recurrenceId info id, h, getOccurrenceFor_recurrenceId]

/-- When the rules and dates that come first are safe, what starts before them is not in the
series. -/
theorem SearchesSafely.le_startOf (h : info.Searchable dates)
    (hsafe : info.SearchesSafely dates aTime) {t : ℤ}
    (hoffered : ∀ other, info.Offered dates aTime other → t ≤ other.toUnixTime)
    (hexceptions : ∀ item ∈ info.mExceptionMap, aTime.toUnixTime < item.startDate.toUnixTime →
      t ≤ item.startDate.toUnixTime)
    (hid : info.InSeries dates id) (hlt : aTime.toUnixTime < info.startOf id) :
    t ≤ info.startOf id := by
  rcases h.series_cases hid with ⟨item, hitem, rfl⟩ | ⟨hpositive, hnone⟩
  · rw [startOf_exception hitem] at hlt ⊢
    exact hexceptions item hitem hlt
  · rw [startOf_none hnone] at hlt ⊢
    rcases h.offered_or_later hpositive hlt hid.2 hnone with hid' | ⟨rule, hrule, hlater⟩
    · exact hoffered id hid'
    · rcases hsafe.rule rule hrule id hlater hid.2 hnone with
        ⟨other, hother, hle⟩ | ⟨item, hitem, hitemlt, hle⟩
      · exact (hoffered other hother).trans hle
      · exact (hexceptions item hitem hitemlt).trans hle

/-- A date of a rule that is not removed and has no exception is in the series. -/
theorem series_of_later {rule : CalRecurrenceRule}
    (hrule : .rule false rule ∈ info.mRecurrenceItems) (hid : id ∈ laterDates dates aTime rule)
    (hnot : ¬ info.IsRemoved dates id) (hnone : info.getExceptionFor id = none) :
    info.InSeries dates id ∧ info.startOf id = id.toUnixTime ∧
      aTime.toUnixTime < id.toUnixTime := by
  obtain ⟨hmem, hlt⟩ := mem_filter.mp hid
  exact ⟨⟨.inr (.inl ⟨_, mem_filter.mpr ⟨hrule, rfl⟩, hmem⟩), hnot⟩, startOf_none hnone,
    by simpa using hlt⟩

/-- When the search gives up, it is safe if no occurrence of the series starts after the time. -/
theorem Searchable.safe_iff_of_repeats (h : info.Searchable dates)
    (hall : ∀ round, info.Repeats dates aTime round) :
    (∀ id, info.InSeries dates id → info.startOf id ≤ aTime.toUnixTime) ↔
      info.SearchesSafely dates aTime := by
  constructor
  · intro hnone
    refine ⟨fun ⟨round, hround⟩ => absurd (hall round) hround,
      fun id hid => absurd hid (not_offered_of_repeats hall),
      fun rule hrule => (not_rule_of_repeats hall hrule).elim, fun _ item hitem hlt => ?_⟩
    by_contra hnot
    have hle := hnone item.recurrenceId ⟨.inr (.inr ⟨item, hitem, rfl⟩), hnot⟩
    rw [startOf_exception hitem] at hle
    omega
  · intro hsafe id hid
    by_contra hlt
    rw [not_le] at hlt
    rcases h.series_cases hid with ⟨item, hitem, rfl⟩ | ⟨hpositive, hnone⟩
    · rw [startOf_exception hitem] at hlt
      exact hid.2 (hsafe.givesUp hall item hitem hlt)
    · rw [startOf_none hnone] at hlt
      rcases h.offered_or_later hpositive hlt hid.2 hnone with hoffered | ⟨rule, hrule, -⟩
      · exact not_offered_of_repeats hall hoffered
      · exact not_rule_of_repeats hall hrule

/-- In UTC, with rules that answer exactly and few invalid dates, the search returns the first
occurrence of the whole expansion that starts after the time, and nothing when there is none, if
and only if it is safe. -/
theorem getNextOccurrence_iff (h : info.Searchable dates) (hfew : info.FewInvalid dates)
    (hTime : aTime.isDate = false) (hearly : info.IsBeforeAll dates early) :
    info.FindsFirst aTime early ↔ info.SearchesSafely dates aTime := by
  rw [h.findsFirst_iff hTime hearly]
  rcases h.getNextOccurrence_cases hfew hTime with
    ⟨hall, hnext⟩ | ⟨⟨round, hround⟩, ⟨hnext, hoffered, hexceptions⟩ |
      ⟨first, hnext, hfirst, hleast, hexceptions⟩ | ⟨first, hnext, hfirst, hleast⟩⟩
  · rw [hnext]
    exact h.safe_iff_of_repeats hall
  · -- nothing was found
    rw [hnext]
    constructor
    · intro hnone
      refine ⟨fun _ item hitem => absurd hitem.1 (hexceptions item hitem.mem),
        fun id hid => absurd hid (hoffered id), fun rule hrule id hid hnot hexception => ?_,
        fun hall => absurd (hall round) hround⟩
      obtain ⟨hseries, hstart, hlt⟩ := series_of_later hrule hid hnot hexception
      have hle := hnone id hseries
      omega
    · intro hsafe id hid
      by_contra hlt
      rw [not_le] at hlt
      have hle := hsafe.le_startOf h (t := info.startOf id + 1)
        (fun other hother => absurd hother (hoffered other))
        (fun item hitem hitemlt => absurd hitemlt (hexceptions item hitem)) hid hlt
      omega
  · -- a date was found
    rw [hnext]
    obtain ⟨hpositive, hlt, hnone⟩ := h.of_offered hfirst
    have hstart := startOf_none hnone
    constructor
    · rintro ⟨id, hid, hitem, -, hmin⟩
      obtain rfl := getOccurrenceFor_injective hitem
      refine ⟨fun _ item hitem hle => ?_, fun other hother hotherle _ => ?_,
        fun rule hrule other hother hnot hexception => ?_, fun hall => absurd (hall round) hround⟩
      · have hgt := hexceptions item hitem.mem hitem.1
        have hle' := hle first hfirst
        omega
      · have heq : other = first := eq_of_toUnixTime
          (h.positive_isDate (h.of_offered hother).1) (h.positive_isDate hpositive)
          (le_antisymm (hotherle first hfirst) (hleast other hother))
        rw [heq]
        exact hid.2
      · obtain ⟨hseries, hotherstart, hotherlt⟩ := series_of_later hrule hother hnot hexception
        have hle := hmin other hseries (hotherstart ▸ hotherlt)
        rw [hstart, hotherstart] at hle
        exact .inl ⟨first, hfirst, hle⟩
    · intro hsafe
      refine ⟨first, ⟨.inr (.inl hpositive), hsafe.date first hfirst hleast hexceptions⟩, rfl,
        hstart ▸ hlt, fun other hother hotherlt => ?_⟩
      rw [hstart]
      exact hsafe.le_startOf h hleast (fun item hitem hitemlt => (hexceptions item hitem hitemlt).le)
        hother hotherlt
  · -- an exception was found
    rw [hnext]
    have hstart := startOf_exception hfirst.mem
    constructor
    · rintro ⟨id, hid, hitem, -, hmin⟩
      obtain rfl := getOccurrenceFor_injective hitem
      refine ⟨fun _ item hitem _ => ?_, fun other hother _ hlater => ?_,
        fun rule hrule other hother hnot hexception => ?_, fun hall => absurd (hall round) hround⟩
      · rw [← hfirst.unique hitem]
        exact hid.2
      · have hgt := hlater first hfirst.mem hfirst.1
        have hle := hleast other hother
        omega
      · obtain ⟨hseries, hotherstart, hotherlt⟩ := series_of_later hrule hother hnot hexception
        have hle := hmin other hseries (hotherstart ▸ hotherlt)
        rw [hstart, hotherstart] at hle
        exact .inr ⟨first, hfirst.mem, hfirst.1, hle⟩
    · intro hsafe
      refine ⟨first.recurrenceId, ⟨.inr (.inr ⟨first, hfirst.mem, rfl⟩),
        hsafe.exception ⟨round, hround⟩ first hfirst hleast⟩, rfl, hstart ▸ hfirst.1,
        fun other hother hotherlt => ?_⟩
      rw [hstart]
      exact hsafe.le_startOf h hleast (fun item hitem hitemlt => hfirst.le hitem hitemlt) hother
        hotherlt

end Safe

/-! ## A removed date beside a valid one -/

def ruleOf (dates : List CalDateTime) : CalRecurrenceRule where
  isFinite := true
  getOccurrences _ a b _ := dates.filter fun date =>
    a.toUnixTime ≤ date.toUnixTime ∧ ∀ x ∈ b, date.toUnixTime < x.toUnixTime
  getNextOccurrence _ searchDate := dates.find? fun date => searchDate.toUnixTime < date.toUnixTime

/-- A rule with the dates 10, 20 and 30, of which 20 is removed, and the date 40. -/
def fourDates : CalRecurrenceInfo where
  mBaseItem := ⟨.dateTime 10, .dateTime 15⟩
  mRecurrenceItems := [.rule false (ruleOf [.dateTime 10, .dateTime 20, .dateTime 30]),
    .date false (.dateTime 40), .date true (.dateTime 20)]
  mExceptionMap := []
  nodup := threeDays.nodup

def threeDates : List CalDateTime := [.dateTime 10, .dateTime 20, .dateTime 30]

theorem fourDates_rule {isNegative : Bool} {rule : CalRecurrenceRule}
    (hrule : .rule isNegative rule ∈ fourDates.mRecurrenceItems) : rule = ruleOf threeDates := by
  simp only [fourDates, mem_cons, CalRecurrenceItem.rule.injEq, reduceCtorEq,
    not_mem_nil, or_false] at hrule
  exact hrule.2

theorem fourDates_searchable : fourDates.Searchable fun _ => threeDates where
  startDate := rfl
  endDate := rfl
  duration := by decide
  exceptions item hitem := by cases hitem
  positive date hdate := by
    simp only [fourDates, mem_cons, CalRecurrenceItem.date.injEq, reduceCtorEq, false_or,
      true_and, Bool.false_eq_true, false_and, not_mem_nil, or_false] at hdate
    rw [hdate]
    rfl
  rules isNegative rule hrule := by
    rw [fourDates_rule hrule]
    exact ⟨by decide, by decide, fun _ _ _ _ => rfl⟩
  advances rule hrule := by
    rw [fourDates_rule hrule]
    exact fun _ _ _ _ => rfl
  finite rule hrule := by
    rw [fourDates_rule hrule]
    rfl
  startDate_positive := ⟨_, mem_filter.mpr ⟨mem_cons_self .., rfl⟩,
    mem_cons_self ..⟩

theorem fourDates_isBeforeAll : fourDates.IsBeforeAll (fun _ => threeDates) (.dateTime 0) := by
  have hdates : ∀ date ∈ threeDates, 0 < date.toUnixTime := by decide
  have hitems : ∀ ritem ∈ fourDates.mRecurrenceItems, ∀ id,
      ritem.HasDate (fun _ => threeDates) id → 0 < id.toUnixTime := by
    intro ritem hritem id hid
    simp only [fourDates, mem_cons, not_mem_nil, or_false] at hritem
    rcases hritem with rfl | rfl | rfl
    · exact hdates id hid
    · rw [show id = .dateTime 40 from hid]
      decide
    · rw [show id = .dateTime 20 from hid]
      decide
  constructor
  · rintro id (rfl | ⟨ritem, hritem, hdate⟩ | ⟨item, hitem, -⟩)
    · decide
    · exact hitems ritem (mem_filter.mp hritem).1 id hdate
    · cases hitem
  · intro item hitem
    cases hitem
  · intro ritem hritem id hid
    exact hitems ritem (mem_filter.mp hritem).1 id hid

/-- After 30, the search is right when it is safe. -/
theorem getNextOccurrence_iff_fourDates :
    fourDates.FindsFirst (.dateTime 30) (.dateTime 0) ↔
      fourDates.SearchesSafely (fun _ => threeDates) (.dateTime 30) :=
  getNextOccurrence_iff fourDates_searchable (fun rule _ before block after heq _ => by
    have hlength := congrArg length heq
    simp only [threeDates, length_cons, length_nil, length_append] at hlength
    omega) rfl fourDates_isBeforeAll

/-- After 10, the search returns the date 40 and not 30. -/
theorem getNextOccurrence_skips :
    fourDates.getNextOccurrence (.dateTime 10) =
        some ⟨⟨.dateTime 40, .dateTime 45⟩, .dateTime 40⟩ ∧
      fourDates.calculateDates (.dateTime 0) none 0 =
        some [⟨.dateTime 10, .dateTime 10⟩, ⟨.dateTime 30, .dateTime 30⟩,
          ⟨.dateTime 40, .dateTime 40⟩] ∧
      ¬ fourDates.FindsFirst (.dateTime 10) (.dateTime 0) := by
  have hnext : fourDates.getNextOccurrence (.dateTime 10) =
      some ⟨⟨.dateTime 40, .dateTime 45⟩, .dateTime 40⟩ := by decide
  have hall : fourDates.calculateDates (.dateTime 0) none 0 =
      some [⟨.dateTime 10, .dateTime 10⟩, ⟨.dateTime 30, .dateTime 30⟩,
        ⟨.dateTime 40, .dateTime 40⟩] := by decide
  refine ⟨hnext, hall, ?_⟩
  rintro ⟨found, hfound, hfirst⟩
  obtain rfl := Option.some.inj (hall.symm.trans hfound)
  obtain ⟨e, he, hitem, -, hmin⟩ := hfirst
  have hle := hmin ⟨.dateTime 30, .dateTime 30⟩ (by simp) (by decide)
  simp only [mem_cons, not_mem_nil, or_false] at he
  rcases he with rfl | rfl | rfl
  · exact absurd hitem (by decide)
  · exact absurd hitem (by decide)
  · exact absurd hle (by decide)

end CalRecurrenceInfo

end CommCentral.Calendar
