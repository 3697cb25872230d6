import Mathlib.Data.List.Basic
import Mathlib.Data.Int.Notation

/-!
# The namespace of a mailbox

`GetNamespaceForMailbox` takes the namespace that matches the most characters of
a mailbox's name, the last of them in the list.  A namespace is meant to match
the mailboxes under its prefix, and the mailbox that is the prefix without the
final delimiter.  It matches every initial piece of its prefix, though, with all
the characters of the piece.

So the choice is right exactly when the last namespace whose prefix begins with
the name, if there is one, is the right one (`LastFits`).
-/

namespace CommCentral.Imap

open List

/-! ## The search -/

inductive NamespaceType where
  | kPersonalNamespace
  | kOtherUsersNamespace
  | kPublicNamespace
  | kDefaultNamespace
  | kUnknownNamespace
deriving DecidableEq

structure ImapNamespace where
  m_namespaceType : NamespaceType
  m_prefix : List Char
  m_delimiter : Char
deriving DecidableEq

/-- `PL_strstr` finds a text at the beginning of another one.  It does not find in an empty text,
nor an empty text. -/
def beginsWith (big little : List Char) : Bool := big ≠ [] ∧ little ≠ [] ∧ little <+: big

/-- `MailboxMatchesNamespace`: the number of characters that match, or -1. -/
def ImapNamespace.mailboxMatchesNamespace (ns : ImapNamespace) (boxname : List Char) : ℤ :=
  -- If the namespace is part of the boxname
  if ns.m_prefix = [] then 0
  else if beginsWith boxname ns.m_prefix then ns.m_prefix.length
  -- If the boxname is part of the prefix
  else if beginsWith ns.m_prefix boxname then boxname.length
  else -1

/-- `GetDefaultNamespaceOfType`. -/
def getDefaultNamespaceOfType (m_NamespaceList : List ImapNamespace) (type : NamespaceType) :
    Option ImapNamespace :=
  let ofType := m_NamespaceList.filter fun ns => ns.m_namespaceType = type
  (ofType.find? fun ns => ns.m_prefix = []).or ofType.head?

/-- The body of the loop of `GetNamespaceForMailbox`, on `lengthMatched` and `rv`. -/
def matchStep (boxname : List Char) (nspace : ImapNamespace) (s : ℤ × Option ImapNamespace) :
    ℤ × Option ImapNamespace :=
  let currentMatchedLength := nspace.mailboxMatchesNamespace boxname
  if currentMatchedLength > s.1 then (currentMatchedLength, some nspace) else s

def isInbox (boxname : List Char) : Bool := boxname.map Char.toLower = "inbox".toList

/-- `GetNamespaceForMailbox`, whose loop begins at the end of the list. -/
def getNamespaceForMailbox (m_NamespaceList : List ImapNamespace) (boxname : List Char) :
    Option ImapNamespace :=
  if isInbox boxname then getDefaultNamespaceOfType m_NamespaceList .kPersonalNamespace
  else (m_NamespaceList.foldr (matchStep boxname) (-1, none)).2

/-! ## The right namespace -/

/-- The mailbox is under the prefix, or it is the prefix without the final delimiter. -/
def ImapNamespace.Contains (ns : ImapNamespace) (boxname : List Char) : Prop :=
  ns.m_prefix <+: boxname ∨ ns.m_prefix = boxname ++ [ns.m_delimiter]

/-- The namespace contains the mailbox, and none with a longer prefix does; there is none only when
no namespace contains it. -/
def RightNamespace (list : List ImapNamespace) (boxname : List Char) (rv : Option ImapNamespace) :
    Prop :=
  (rv = none → ∀ ns ∈ list, ¬ ns.Contains boxname) ∧
    ∀ ns, rv = some ns → ns ∈ list ∧ ns.Contains boxname ∧
      ∀ other ∈ list, other.Contains boxname → other.m_prefix.length ≤ ns.m_prefix.length

/-- The last namespace whose prefix begins with the name is at most one character longer than the
name, and no such namespace before it is longer and would be right.  For the empty name, which no
prefix begins with here, there is no prefix of one character. -/
def LastFits (list : List ImapNamespace) (boxname : List Char) : Prop :=
  (boxname = [] → ∀ ns ∈ list, ns.m_prefix.length ≠ 1) ∧
    (boxname ≠ [] → ∀ ns, (list.filter fun ns => boxname <+: ns.m_prefix).getLast? = some ns →
      ns.m_prefix.length ≤ boxname.length + 1 ∧
        ∀ other ∈ list, boxname <+: other.m_prefix →
          other.m_prefix.length ≤ boxname.length + 1 →
            other.m_prefix.length ≤ ns.m_prefix.length)

/-- The loop takes the last of the namespaces that match the most characters. -/
theorem foldr_matchStep (list : List ImapNamespace) (boxname : List Char) :
    let s := list.foldr (matchStep boxname) (-1, none)
    (∀ ns ∈ list, ns.mailboxMatchesNamespace boxname ≤ s.1) ∧ (s.2 = none ↔ s.1 = -1) ∧
      -1 ≤ s.1 ∧ ∀ ns, s.2 = some ns →
        (list.filter fun ns => ns.mailboxMatchesNamespace boxname = s.1).getLast? = some ns := by
  induction list with
  | nil =>
    exact ⟨fun _ h => (not_mem_nil h).elim, iff_of_true rfl rfl, Int.le_refl _,
      fun _ h => by cases h⟩
  | cons first list ih =>
    obtain ⟨hle, hnone, hlow, hlast⟩ := ih
    generalize hs : list.foldr (matchStep boxname) (-1, none) = s at *
    simp only [foldr_cons, hs, matchStep, forall_mem_cons]
    split
    next hlt =>
      refine ⟨⟨Int.le_refl _, fun ns hns => ?_⟩, ⟨fun h => (by cases h), fun h => ?_⟩, ?_,
        fun ns h => ?_⟩
      · have hns := hle ns hns
        dsimp only
        omega
      · dsimp only at h
        omega
      · dsimp only
        omega
      · have hothers : list.filter (fun ns => ns.mailboxMatchesNamespace boxname =
            first.mailboxMatchesNamespace boxname) = [] := by
          refine filter_eq_nil_iff.mpr fun other hother heq => ?_
          have hother := hle other hother
          have heq := of_decide_eq_true heq
          omega
        dsimp only
        rw [filter_cons_of_pos (by simp), hothers, ← h]
        rfl
    next hge =>
      refine ⟨⟨Int.not_lt.mp hge, hle⟩, hnone, hlow, fun ns h => ?_⟩
      rw [filter_cons]
      split
      · rw [getLast?_cons, hlast ns h]
        rfl
      · exact hlast ns h

variable {list : List ImapNamespace} {boxname : List Char}

/-- What a namespace matches, of a name that is not empty. -/
theorem ImapNamespace.matches_cases (ns : ImapNamespace) (hne : boxname ≠ []) :
    (ns.m_prefix <+: boxname ∧ ns.mailboxMatchesNamespace boxname = ns.m_prefix.length) ∨
    (boxname <+: ns.m_prefix ∧ ns.mailboxMatchesNamespace boxname = boxname.length) ∨
    (¬ ns.m_prefix <+: boxname ∧ ¬ boxname <+: ns.m_prefix ∧
      ns.mailboxMatchesNamespace boxname = -1) := by
  rw [mailboxMatchesNamespace]
  simp only [beginsWith, hne, ne_eq, not_false_eq_true, true_and, decide_eq_true_iff]
  split_ifs with hnil hunder hpiece
  · exact .inl (by simp [hnil])
  · exact .inl ⟨hunder.2, rfl⟩
  · exact .inr (.inl ⟨hpiece.2, rfl⟩)
  · exact .inr (.inr ⟨fun h => hunder ⟨hnil, h⟩, fun h => hpiece ⟨hnil, h⟩, rfl⟩)

theorem ImapNamespace.matches_of_prefix (ns : ImapNamespace) (hne : boxname ≠ [])
    (h : ns.m_prefix <+: boxname) : ns.mailboxMatchesNamespace boxname = ns.m_prefix.length := by
  rcases ns.matches_cases hne with ⟨-, heq⟩ | ⟨hpiece, heq⟩ | ⟨hnot, -⟩
  · exact heq
  · rw [heq, h.eq_of_length (Nat.le_antisymm h.length_le hpiece.length_le)]
  · exact absurd h hnot

/-- Only an empty prefix matches the empty name. -/
theorem ImapNamespace.matches_nil (ns : ImapNamespace) :
    ns.mailboxMatchesNamespace [] = if ns.m_prefix = [] then 0 else -1 := by
  rw [mailboxMatchesNamespace]
  simp [beginsWith]

/-- A namespace contains the mailboxes under its prefix, and one with the prefix without its last
character. -/
theorem ImapNamespace.contains_iff {ns : ImapNamespace}
    (hdelimiter : ns.m_prefix ≠ [] → ns.m_prefix.getLast? = some ns.m_delimiter) :
    ns.Contains boxname ↔ ns.m_prefix <+: boxname ∨
      boxname <+: ns.m_prefix ∧ ns.m_prefix.length = boxname.length + 1 := by
  refine or_congr Iff.rfl ⟨fun h => ?_, fun h => ?_⟩
  · rw [h]
    exact ⟨prefix_append _ _, length_append⟩
  · obtain ⟨⟨rest, hrest⟩, hlength⟩ := h
    rw [← hrest] at hdelimiter hlength ⊢
    rw [length_append, Nat.add_left_cancel_iff] at hlength
    obtain ⟨c, rfl⟩ := length_eq_one_iff.mp hlength
    have hlast := hdelimiter (by simp)
    rw [getLast?_concat, Option.some.injEq] at hlast
    rw [hlast]

/-- The choice for a name that the prefixes of some namespaces begin with. -/
theorem foldr_matchStep_of_piece (hne : boxname ≠ []) {last : ImapNamespace}
    (hlast : (list.filter fun ns => boxname <+: ns.m_prefix).getLast? = some last) :
    (list.foldr (matchStep boxname) (-1, none)).2 = some last := by
  obtain ⟨hle, hnone, -, hchoice⟩ := foldr_matchStep list boxname
  generalize list.foldr (matchStep boxname) (-1, none) = s at *
  have hpiece : ∀ ns : ImapNamespace, ns.mailboxMatchesNamespace boxname ≤ boxname.length ∧
      (ns.mailboxMatchesNamespace boxname = boxname.length ↔ boxname <+: ns.m_prefix) := by
    intro ns
    rcases ns.matches_cases hne with ⟨hunder, heq⟩ | ⟨hpiece, heq⟩ | ⟨-, hpiece, heq⟩
    · rw [heq]
      have hlength := hunder.length_le
      refine ⟨by omega, fun h => ?_, fun h => ?_⟩
      · exact hunder.eq_of_length (by omega) ▸ prefix_rfl
      · rw [hunder.eq_of_length (Nat.le_antisymm hlength h.length_le)]
    · exact ⟨by omega, iff_of_true heq hpiece⟩
    · exact ⟨by omega, iff_of_false (by omega) hpiece⟩
  have hmem := mem_filter.mp (mem_of_getLast? hlast)
  have hlength := hle last hmem.1
  rw [(hpiece last).2.mpr (of_decide_eq_true hmem.2)] at hlength
  cases hs : s.2 with
  | none =>
    have hlow := hnone.mp hs
    omega
  | some ns =>
    have hns := hchoice ns hs
    have hmatched := of_decide_eq_true (mem_filter.mp (mem_of_getLast? hns)).2
    have hfull := (hpiece ns).1
    rw [← hns, ← hlast]
    refine congrArg List.getLast? (filter_congr fun other _ => decide_eq_decide.mpr ?_)
    rw [← (hpiece other).2]
    omega

/-- The choice is the right one exactly when the last namespace whose prefix begins with the name
fits. -/
theorem getNamespaceForMailbox_right_iff (list : List ImapNamespace) (boxname : List Char)
    (hinbox : isInbox boxname = false)
    (hdelimiter : ∀ ns ∈ list, ns.m_prefix ≠ [] → ns.m_prefix.getLast? = some ns.m_delimiter) :
    RightNamespace list boxname (getNamespaceForMailbox list boxname) ↔ LastFits list boxname := by
  have hcontains := fun ns hns =>
    @ImapNamespace.contains_iff boxname ns (hdelimiter ns hns)
  obtain ⟨hle, hnone, -, hchoice⟩ := foldr_matchStep list boxname
  have hpiece := @foldr_matchStep_of_piece list boxname
  rw [getNamespaceForMailbox, hinbox, if_neg Bool.false_ne_true]
  generalize list.foldr (matchStep boxname) (-1, none) = s at *
  have hsome : ∀ ns, s.2 = some ns →
      ns ∈ list ∧ ns.mailboxMatchesNamespace boxname = s.1 ∧ s.1 ≠ -1 := by
    intro ns h
    obtain ⟨hns, heq⟩ := mem_filter.mp (mem_of_getLast? (hchoice ns h))
    refine ⟨hns, of_decide_eq_true heq, fun hlow => ?_⟩
    rw [hnone.mpr hlow] at h
    cases h
  rcases eq_or_ne boxname [] with rfl | hne
  · have hnil : ∀ ns ∈ list, ns.Contains [] ↔ ns.m_prefix = [] ∨ ns.m_prefix.length = 1 := by
      intro ns hns
      rw [hcontains ns hns, prefix_nil]
      simp
    have hempty : ∀ ns, s.2 = some ns → ns.m_prefix = [] := by
      intro ns h
      obtain ⟨-, heq, hlow⟩ := hsome ns h
      rw [ns.matches_nil] at heq
      by_contra hne
      exact hlow (by rw [← heq, if_neg hne])
    constructor
    · intro hright
      refine ⟨fun _ ns hns hone => ?_, fun h => absurd rfl h⟩
      have hns' := (hnil ns hns).mpr (.inr hone)
      cases hs : s.2 with
      | none => exact hright.1 hs ns hns hns'
      | some rv =>
        have hlonger := (hright.2 rv hs).2.2 ns hns hns'
        rw [hempty rv hs, hone] at hlonger
        exact absurd hlonger (by decide)
    · intro hfits
      have hshort : ∀ ns ∈ list, ns.Contains [] → ns.m_prefix = [] := fun ns hns h =>
        ((hnil ns hns).mp h).resolve_right (hfits.1 rfl ns hns)
      refine ⟨fun h ns hns hns' => ?_, fun ns h => ⟨(hsome ns h).1, ?_, fun other hother h' => ?_⟩⟩
      · have hlow := hle ns hns
        rw [ns.matches_nil, if_pos (hshort ns hns hns'), hnone.mp h] at hlow
        exact absurd hlow (by decide)
      · exact (hnil ns (hsome ns h).1).mpr (.inl (hempty ns h))
      · rw [hshort other hother h']
        exact Nat.zero_le _
  · cases hlast : (list.filter fun ns => boxname <+: ns.m_prefix).getLast? with
    | none =>
      have hout : ∀ ns ∈ list, ¬ boxname <+: ns.m_prefix := by
        intro ns hns hpiece
        have hnil := filter_eq_nil_iff.mp (getLast?_eq_none_iff.mp hlast) ns hns
        exact hnil (decide_eq_true hpiece)
      have hunder : ∀ ns ∈ list, ns.Contains boxname → ns.m_prefix <+: boxname := by
        intro ns hns h
        exact ((hcontains ns hns).mp h).resolve_right fun hpiece => hout ns hns hpiece.1
      refine iff_of_true ⟨fun h ns hns hns' => ?_, fun ns h => ?_⟩
        ⟨fun h => absurd h hne, fun _ ns h => by rw [hlast] at h; cases h⟩
      · have hlow := hle ns hns
        rw [ns.matches_of_prefix hne (hunder ns hns hns'), hnone.mp h] at hlow
        omega
      · obtain ⟨hns, heq, hlow⟩ := hsome ns h
        have hns' : ns.m_prefix <+: boxname := by
          rcases ns.matches_cases hne with ⟨hns', -⟩ | ⟨hpiece, -⟩ | ⟨-, -, hout⟩
          · exact hns'
          · exact absurd hpiece (hout ns hns)
          · exact absurd (heq.symm.trans hout) hlow
        refine ⟨hns, .inl hns', fun other hother hother' => ?_⟩
        have hmost := hle other hother
        rw [other.matches_of_prefix hne (hunder other hother hother'), ← heq,
          ns.matches_of_prefix hne hns'] at hmost
        omega
    | some last =>
      obtain ⟨hmem, hlastpiece⟩ := mem_filter.mp (mem_of_getLast? hlast)
      have hlastpiece := of_decide_eq_true hlastpiece
      have hlength := hlastpiece.length_le
      have hnear : ∀ text : List Char, boxname <+: text → text.length ≤ boxname.length + 1 →
          text <+: boxname ∨ boxname <+: text ∧ text.length = boxname.length + 1 := by
        intro text hpiece hshort
        rcases Nat.lt_or_eq_of_le hshort with hlt | heq
        · rw [hpiece.eq_of_length (Nat.le_antisymm hpiece.length_le (Nat.le_of_lt_succ hlt))]
          exact .inl prefix_rfl
        · exact .inr ⟨hpiece, heq⟩
      rw [hpiece hne hlast]
      constructor
      · rintro ⟨-, hright⟩
        obtain ⟨-, hlast', hlongest⟩ := hright last rfl
        refine ⟨fun h => absurd h hne, fun _ ns h => ?_⟩
        rw [hlast, Option.some.injEq] at h
        subst h
        refine ⟨?_, fun other hother hpiece hshort => hlongest other hother ?_⟩
        · rcases (hcontains last hmem).mp hlast' with hunder | hone
          · exact Nat.le_succ_of_le hunder.length_le
          · exact Nat.le_of_eq hone.2
        · exact (hcontains other hother).mpr (hnear other.m_prefix hpiece hshort)
      · intro hfits
        obtain ⟨hshort, hlongest⟩ := hfits.2 hne last hlast
        refine ⟨fun h => (by cases h), fun ns h => ?_⟩
        cases h
        refine ⟨hmem, (hcontains last hmem).mpr (hnear last.m_prefix hlastpiece hshort),
          fun other hother hother' => ?_⟩
        rcases (hcontains other hother).mp hother' with hunder | ⟨hpiece, hone⟩
        · exact Nat.le_trans hunder.length_le hlength
        · exact hlongest other hother hpiece (Nat.le_of_eq hone)

/-- A mailbox in a nested namespace, and the mailbox of that namespace. -/
def publicUsers : List ImapNamespace :=
  [⟨.kPublicNamespace, "Public/".toList, '/'⟩, ⟨.kOtherUsersNamespace, "Public/Users/".toList, '/'⟩]

theorem getNamespaceForMailbox_publicUsers :
    isInbox "Public/Users".toList = false ∧
      (RightNamespace publicUsers "Public/Users".toList
        (getNamespaceForMailbox publicUsers "Public/Users".toList) ↔
          LastFits publicUsers "Public/Users".toList) :=
  ⟨by decide, getNamespaceForMailbox_right_iff _ _ (by decide) (by decide)⟩

/-- An initial piece of a prefix is assigned to the namespace. -/
theorem not_rightNamespace_publicUsers :
    ¬ RightNamespace publicUsers "Pub".toList
      (getNamespaceForMailbox publicUsers "Pub".toList) := by
  intro h
  have hns := h.2 _ (show getNamespaceForMailbox publicUsers "Pub".toList =
    some ⟨.kOtherUsersNamespace, "Public/Users/".toList, '/'⟩ by decide)
  rcases hns.2.1 with hunder | hname
  · revert hunder
    decide
  · revert hname
    decide

end CommCentral.Imap
