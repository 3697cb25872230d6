import Mathlib.Data.List.Chain

/-!
# Folder names of a server

A canonical path has '/' between the levels of the hierarchy.  A slash in a name
is escaped as one caret, and a caret as two (`EscapeSlashes`).  Carets are read
in pairs (`UnescapeSlashes`), so a slash in front of another slash or of a caret
is read as a caret.

The conversion is undone exactly for names without such slashes.  No online
directory is configured, so `AddOnlineDirectoryIfNecessary` adds nothing.
-/

namespace CommCentral.Imap

open List

/-! ## The conversions -/

/-- `EscapeSlashes`. -/
def escapeSlashes : List Char → List Char
  | [] => []
  | c :: sourcePath =>
    if c = '/' then '^' :: escapeSlashes sourcePath
    else if c = '^' then '^' :: '^' :: escapeSlashes sourcePath
    else c :: escapeSlashes sourcePath

/-- `UnescapeSlashes`. -/
def unescapeSlashes : List Char → List Char
  | [] => []
  | c :: src =>
    if c = '^' then
      match src with
      | [] => ['/']
      | d :: src =>
        -- skip over second '^'
        if d = '^' then '^' :: unescapeSlashes src else '/' :: unescapeSlashes (d :: src)
    else c :: unescapeSlashes src

/-- `ReplaceCharsInCopiedString`. -/
def replaceChars (stringToCopy : List Char) (oldChar newChar : Char) : List Char :=
  stringToCopy.map fun c => if c = oldChar then newChar else c

/-- `ConvertToCanonicalFormat`. -/
def convertToCanonicalFormat (folderName : List Char) (onlineDelimiter : Char) : List Char :=
  if onlineDelimiter ≠ '/' then replaceChars (escapeSlashes folderName) onlineDelimiter '/'
  else folderName

def kOnlineHierarchySeparatorUnknown : Char := '^'

/-- `AllocateServerPath`, without an online directory. -/
def allocateServerPath (m_onlineSubDirSeparator : Char) (canonicalPath : List Char)
    (onlineDelimiter : Char) : List Char :=
  let delimiterToUse :=
    if onlineDelimiter = kOnlineHierarchySeparatorUnknown then m_onlineSubDirSeparator
    else onlineDelimiter
  let path := replaceChars canonicalPath '/' delimiterToUse
  if delimiterToUse ≠ '/' then unescapeSlashes path else path

/-! ## The way back -/

/-- Behind a slash there is neither a slash nor a caret. -/
def SlashesStandAlone (name : List Char) : Prop :=
  name.IsChain fun c d => c = '/' → d ≠ '/' ∧ d ≠ '^'

theorem slash_notMem_escapeSlashes (name : List Char) : '/' ∉ escapeSlashes name := by
  induction name with
  | nil => exact not_mem_nil
  | cons c name ih =>
    rw [escapeSlashes]
    split_ifs with hslash hcaret
    · simp [ih]
    · simp [ih]
    · simp [ih, Ne.symm hslash]

/-- A delimiter that was replaced is put back. -/
theorem replaceChars_replaceChars {path : List Char} (h : '/' ∉ path) (delimiter : Char) :
    replaceChars (replaceChars path delimiter '/') '/' delimiter = path := by
  rw [replaceChars, replaceChars, map_map]
  refine (map_congr_left fun c hc => ?_).trans (map_id path)
  have hslash : c ≠ '/' := fun heq => h (heq ▸ hc)
  rw [Function.comp_apply]
  rcases eq_or_ne c delimiter with rfl | hne
  · rw [if_pos rfl, if_pos rfl]
    rfl
  · rw [if_neg hne, if_neg hslash]
    rfl

theorem slashesStandAlone_cons {c : Char} (h : c ≠ '/') (name : List Char) :
    SlashesStandAlone (c :: name) ↔ SlashesStandAlone name := by
  cases name with
  | nil => exact iff_of_true (.singleton _) .nil
  | cons d name => simp [SlashesStandAlone, isChain_cons_cons, h]

/-- The escapes are undone exactly when each slash stands alone. -/
theorem unescapeSlashes_escapeSlashes (name : List Char) :
    unescapeSlashes (escapeSlashes name) = name ↔ SlashesStandAlone name := by
  induction name with
  | nil => exact iff_of_true rfl .nil
  | cons c name ih =>
    rw [escapeSlashes]
    split_ifs with hslash hcaret
    · subst hslash
      cases name with
      | nil => exact iff_of_true rfl (.singleton _)
      | cons d name =>
        rw [SlashesStandAlone, isChain_cons_cons, ← SlashesStandAlone, ← ih, escapeSlashes]
        split_ifs with hslash hcaret
        · simp [unescapeSlashes, hslash]
        · simp [unescapeSlashes, hcaret]
        · rw [unescapeSlashes, if_pos rfl]
          simp [hslash, hcaret]
    · subst hcaret
      rw [slashesStandAlone_cons hslash, ← ih]
      simp [unescapeSlashes]
    · rw [slashesStandAlone_cons hslash, ← ih, unescapeSlashes.eq_def]
      simp [hcaret]

/-- For every delimiter that a server has: a name comes back exactly when each of its slashes stands
alone, and of such names no two have the same canonical path. -/
theorem allocateServerPath_iff (m_onlineSubDirSeparator onlineDelimiter : Char)
    (hslash : onlineDelimiter ≠ '/') (hknown : onlineDelimiter ≠ '^') (name : List Char) :
    (allocateServerPath m_onlineSubDirSeparator (convertToCanonicalFormat name onlineDelimiter)
      onlineDelimiter = name ↔ SlashesStandAlone name) ∧
    (SlashesStandAlone name → ∀ other, SlashesStandAlone other →
      convertToCanonicalFormat name onlineDelimiter =
        convertToCanonicalFormat other onlineDelimiter → name = other) := by
  have hback : ∀ name, allocateServerPath m_onlineSubDirSeparator
      (convertToCanonicalFormat name onlineDelimiter) onlineDelimiter =
        unescapeSlashes (escapeSlashes name) := by
    intro name
    have hdelimiter : ¬ onlineDelimiter = kOnlineHierarchySeparatorUnknown := hknown
    rw [convertToCanonicalFormat, if_pos hslash, allocateServerPath]
    simp only [if_neg hdelimiter, if_pos hslash,
      replaceChars_replaceChars (slash_notMem_escapeSlashes name)]
  refine ⟨by rw [hback, unescapeSlashes_escapeSlashes], fun hname other hother hsame => ?_⟩
  rw [← (unescapeSlashes_escapeSlashes name).mpr hname, ← hback, hsame, hback,
    (unescapeSlashes_escapeSlashes other).mpr hother]

/-- A name with single slashes, for the delimiter '.'. -/
theorem allocateServerPath_single :
    (allocateServerPath '.' (convertToCanonicalFormat "a/b^.c".toList '.') '.' = "a/b^.c".toList ↔
      SlashesStandAlone "a/b^.c".toList) ∧
    (SlashesStandAlone "a/b^.c".toList → ∀ other, SlashesStandAlone other →
      convertToCanonicalFormat "a/b^.c".toList '.' = convertToCanonicalFormat other '.' →
        "a/b^.c".toList = other) :=
  allocateServerPath_iff '.' '.' (by decide) (by decide) _

/-- Two slashes do not come back, and "/^" and "^/" have the same canonical path. -/
theorem not_allocateServerPath :
    allocateServerPath '.' (convertToCanonicalFormat "a//b".toList '.') '.' ≠ "a//b".toList ∧
      convertToCanonicalFormat "/^".toList '.' = convertToCanonicalFormat "^/".toList '.' ∧
      "/^".toList ≠ "^/".toList := by
  decide

end CommCentral.Imap
