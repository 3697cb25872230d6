import Mathlib.Data.List.Basic
import Mathlib.Data.Int.Notation

/-!
# The path of a folder

`NS_MsgCreatePathStringFromFolderURI` goes from slash to slash of a URI, and adds
the pieces between them to a path.  The loop ends at an empty piece in front of
another slash, but for the first piece.

`visited` are the pieces behind the first slash that the loop comes to.  The path
has all pieces exactly when no others are left (`NothingDropped`).
-/

namespace CommCentral.Base

open List

/-! ## The loop -/

/-- `FindChar`: the first place from an offset on, or -1. -/
def findChar (s : List Char) (c : Char) (offset : ℤ) : ℤ :=
  let rest := s.drop offset.toNat
  if c ∈ rest then offset + (rest.takeWhile (· ≠ c)).length else -1

def folderSuffix : List Char := ".sbd".toList

def endOfPiece (oldPath : List Char) (startSlashPos : ℤ) : ℤ :=
  let endSlashPos :=
    if startSlashPos ≥ 0 then findChar oldPath '/' (startSlashPos + 1) - 1 else oldPath.length - 1
  if endSlashPos < 0 then oldPath.length else endSlashPos

/-- What is done with pieces: `CopyUTF16toMUTF7` and `NS_MsgHashIfNecessary`. -/
structure PieceConversions where
  copyUTF16toMUTF7 : List Char → List Char
  hashIfNecessary : List Char → List Char

/-- The schemes whose pieces are not hashed. -/
def isLocalUri (aScheme : List Char) : Bool :=
  aScheme ∈ ["none".toList, "pop3".toList, "rss".toList]

/-- A piece is added to the path and `haveFirst`, unless it is empty. -/
def addPiece (conv : PieceConversions) (aScheme : List Char) (aIsNewsFolder : Bool)
    (s : List Char × Bool) (pathPiece : List Char) : List Char × Bool :=
  if pathPiece = [] then s
  else
    -- add .sbd onto the previous path
    let path := if s.2 then s.1 ++ folderSuffix ++ ['/'] else s.1
    let pathPiece := if aIsNewsFolder then conv.copyUTF16toMUTF7 pathPiece else pathPiece
    (path ++ if isLocalUri aScheme then pathPiece else conv.hashIfNecessary pathPiece, true)

variable (add : List Char × Bool → List Char → List Char × Bool)

def pathLoop (oldPath : List Char) :
    ℕ → ℤ → ℤ → List Char × Bool → Option (List Char)
  | 0, _, _, _ => none
  | fuel + 1, startSlashPos, endSlashPos, s =>
    if startSlashPos = -1 then some s.1
    else
      let pathPiece :=
        (oldPath.drop (startSlashPos + 1).toNat).take (endSlashPos - startSlashPos).toNat
      let s := add s pathPiece
      -- look for the next slash
      let startSlashPos := endSlashPos + 1
      let endSlashPos := endOfPiece oldPath startSlashPos
      if startSlashPos ≥ endSlashPos then some s.1
      else pathLoop oldPath fuel startSlashPos endSlashPos s

/-- `NS_MsgCreatePathStringFromFolderURI`, of characters that can be converted.  Each turn uses up a
slash. -/
def createPathStringFromFolderURI (conv : PieceConversions) (aFolderURI aScheme : List Char)
    (aIsNewsFolder : Bool) : Option (List Char) :=
  let startSlashPos := findChar aFolderURI '/' 0
  pathLoop (addPiece conv aScheme aIsNewsFolder) aFolderURI (aFolderURI.splitOn '/').length
    startSlashPos (endOfPiece aFolderURI startSlashPos) ([], false)

/-! ## The pieces -/

/-- The pieces that the loop comes to. -/
def visited : List (List Char) → List (List Char)
  | [] => []
  | [piece] => [piece]
  | piece :: next :: pieces =>
    piece :: if next = [] ∧ pieces ≠ [] then [] else visited (next :: pieces)

variable {oldPath : List Char}

theorem findChar_append (front piece rest : List Char) (h : '/' ∉ piece) :
    findChar (front ++ (piece ++ '/' :: rest)) '/' front.length = front.length + piece.length := by
  have hall : ∀ c ∈ piece, decide (c ≠ '/') = true := fun c hc =>
    decide_eq_true fun heq => h (heq ▸ hc)
  rw [findChar, Int.toNat_natCast, drop_left,
    if_pos (mem_append_right _ mem_cons_self), takeWhile_append_of_pos hall,
    takeWhile_cons_of_neg (by decide), List.append_nil]

theorem endOfPiece_eq {front piece : List Char} {pieces : List (List Char)} (h : '/' ∉ piece)
    (hpath : oldPath = front ++ '/' :: [('/' : Char)].intercalate (piece :: pieces)) :
    endOfPiece oldPath front.length =
      if pieces = [] then (oldPath.length : ℤ) else front.length + piece.length := by
  have hfront : ((front.length : ℤ) + 1) = (front ++ ['/']).length := by simp
  rw [endOfPiece, if_pos (Int.natCast_nonneg _), hfront]
  cases pieces with
  | nil =>
    have hpath : oldPath = (front ++ ['/']) ++ piece := by simpa using hpath
    rw [if_pos rfl, findChar, Int.toNat_natCast, hpath, drop_left, if_neg h]
    rfl
  | cons next pieces =>
    have hpath : oldPath = (front ++ ['/']) ++
        (piece ++ '/' :: [('/' : Char)].intercalate (next :: pieces)) := by simpa using hpath
    rw [hpath, findChar_append _ _ _ h, if_neg (cons_ne_nil _ _)]
    simp only [length_append, length_singleton]
    rw [if_neg (by omega)]
    omega

theorem drop_slash {front rest : List Char} (hpath : oldPath = front ++ '/' :: rest) :
    oldPath.drop ((front.length : ℤ) + 1).toNat = rest := by
  have hlength : ((front.length : ℤ) + 1).toNat = (front ++ ['/']).length := by simp
  have hpath : oldPath = (front ++ ['/']) ++ rest := by simpa using hpath
  rw [hlength, hpath, drop_left]

theorem pathLoop_eq (pieces : List (List Char)) :
    ∀ {piece front : List Char} {fuel : ℕ} {s : List Char × Bool},
      (∀ p ∈ piece :: pieces, '/' ∉ p) → pieces.length < fuel →
      oldPath = front ++ '/' :: [('/' : Char)].intercalate (piece :: pieces) →
      pathLoop add oldPath fuel front.length (endOfPiece oldPath front.length) s =
        some ((visited (piece :: pieces)).foldl add s).1 := by
  induction pieces with
  | nil =>
    intro piece front fuel s hslash hfuel hpath
    obtain ⟨fuel, rfl⟩ := Nat.exists_eq_add_of_lt hfuel
    have hend := endOfPiece_eq (hslash piece mem_cons_self) hpath
    rw [if_pos rfl] at hend
    rw [intercalate_singleton] at hpath
    have hlength := congrArg List.length hpath
    rw [length_append, length_cons] at hlength
    have hbehind : endOfPiece oldPath (oldPath.length + 1) = oldPath.length := by
      have hfind : findChar oldPath '/' (oldPath.length + 1 + 1) = -1 := by
        rw [findChar, drop_eq_nil_of_le (by omega), if_neg not_mem_nil]
      rw [endOfPiece, if_pos (by omega)]
    rw [hend, length_nil, Nat.zero_add, pathLoop, if_neg (by omega), drop_slash hpath,
      take_of_length_le (by omega)]
    simp only [hbehind]
    rw [if_pos (by omega)]
    rfl
  | cons next pieces ih =>
    intro piece front fuel s hslash hfuel hpath
    obtain ⟨fuel, rfl⟩ := Nat.exists_eq_add_of_lt hfuel
    rw [forall_mem_cons] at hslash
    have hend := endOfPiece_eq hslash.1 hpath
    rw [if_neg (cons_ne_nil _ _)] at hend
    rw [intercalate_cons_cons, append_assoc] at hpath
    have hpiece : (oldPath.drop ((front.length : ℤ) + 1).toNat).take
        ((front.length + piece.length : ℤ) - front.length).toNat = piece := by
      have hlength : ((front.length + piece.length : ℤ) - front.length).toNat = piece.length := by
        omega
      rw [drop_slash hpath, hlength, take_left]
    have hpath' : oldPath = (front ++ '/' :: piece) ++
        '/' :: [('/' : Char)].intercalate (next :: pieces) := by simpa using hpath
    have hnext := endOfPiece_eq (hslash.2 next mem_cons_self) hpath'
    have hstart : (front.length + piece.length + 1 : ℤ) = (front ++ '/' :: piece).length := by
      rw [length_append, length_cons]
      omega
    have hlength := congrArg List.length hpath'
    rw [length_append, length_cons] at hlength
    have hstop : ((front ++ '/' :: piece).length : ℤ) ≥
        endOfPiece oldPath (front ++ '/' :: piece).length ↔ next = [] ∧ pieces ≠ [] := by
      rw [hnext]
      cases pieces with
      | nil =>
        rw [if_pos rfl]
        exact iff_of_false (by omega) fun h => h.2 rfl
      | cons p pieces =>
        rw [if_neg (cons_ne_nil _ _), ← length_eq_zero_iff,
          and_iff_left (cons_ne_nil _ _)]
        omega
    rw [hend, pathLoop, if_neg (by omega), hpiece]
    simp only [hstart]
    rw [visited, foldl_cons]
    split
    next h =>
      rw [if_pos (hstop.mp h)]
      rfl
    next h =>
      rw [if_neg fun hempty => h (hstop.mpr hempty)]
      exact ih hslash.2 (by rw [length_cons]; omega) hpath'

/-! ## The path -/

/-- Pieces with the suffix and a slash between them. -/
def joinPieces : List (List Char) → List Char
  | [] => []
  | piece :: pieces => piece ++ pieces.flatMap fun piece => folderSuffix ++ '/' :: piece

/-- There is nothing in front of the first slash, and behind an empty piece there are only empty
ones, but for the first piece behind that slash. -/
def NothingDropped (aFolderURI : List Char) : Prop :=
  (aFolderURI.splitOn '/').head? = some [] ∧
    ∀ piece ∈ ((aFolderURI.splitOn '/').drop 2).dropWhile (· ≠ []), piece = []

theorem foldl_addPiece (conv : PieceConversions) {aScheme : List Char}
    (hlocal : isLocalUri aScheme = true) (pieces : List (List Char)) :
    (pieces.foldl (addPiece conv aScheme false) ([], false)).1 =
      joinPieces (pieces.filter (· ≠ [])) := by
  have hmore : ∀ (pieces : List (List Char)) (path : List Char),
      (pieces.foldl (addPiece conv aScheme false) (path, true)).1 =
        path ++ (pieces.filter (· ≠ [])).flatMap fun piece => folderSuffix ++ '/' :: piece := by
    intro pieces
    induction pieces with
    | nil => exact fun path => (List.append_nil path).symm
    | cons piece pieces ih =>
      intro path
      cases piece with
      | nil => exact ih path
      | cons c piece =>
        rw [foldl_cons, addPiece, if_neg (cons_ne_nil _ _), if_pos rfl, ih]
        simp [hlocal]
  induction pieces with
  | nil => rfl
  | cons piece pieces ih =>
    cases piece with
    | nil => exact ih
    | cons c piece =>
      rw [foldl_cons, addPiece, if_neg (cons_ne_nil _ _), hmore]
      simp [hlocal, joinPieces]

theorem splitOn_joinPieces (pieces : List (List Char)) :
    ∀ {piece : List Char}, (∀ p ∈ piece :: pieces, '/' ∉ p) →
      (joinPieces (piece :: pieces) ++ (folderSuffix ++ ['/'])).splitOn '/' =
        (piece :: pieces).map (· ++ folderSuffix) ++ [[]] := by
  have hsuffix : '/' ∉ folderSuffix := by decide
  induction pieces with
  | nil =>
    intro piece h
    have hpiece : '/' ∉ piece ++ folderSuffix := by simp [h, hsuffix]
    rw [joinPieces, flatMap_nil, List.append_nil, ← append_assoc,
      splitOn_append_cons_self_of_not_mem hpiece]
    rfl
  | cons next pieces ih =>
    intro piece h
    rw [forall_mem_cons] at h
    have hpiece : '/' ∉ piece ++ folderSuffix := by simp [h.1, hsuffix]
    have hjoin : joinPieces (piece :: next :: pieces) =
        piece ++ folderSuffix ++ '/' :: joinPieces (next :: pieces) := by simp [joinPieces]
    rw [hjoin, append_assoc, cons_append,
      splitOn_append_cons_self_of_not_mem hpiece, ih h.2]
    rfl

/-- Pieces without slashes can be told from what they are joined to. -/
theorem joinPieces_injective {pieces others : List (List Char)}
    (hpieces : ∀ p ∈ pieces, p ≠ [] ∧ '/' ∉ p) (hothers : ∀ p ∈ others, p ≠ [] ∧ '/' ∉ p)
    (h : joinPieces pieces = joinPieces others) : pieces = others := by
  cases pieces with
  | nil =>
    cases others with
    | nil => rfl
    | cons q others =>
      exact absurd (append_eq_nil_iff.mp h.symm).1 (hothers q mem_cons_self).1
  | cons p pieces =>
    cases others with
    | nil => exact absurd (append_eq_nil_iff.mp h).1 (hpieces p mem_cons_self).1
    | cons q others =>
      have hsplit := splitOn_joinPieces pieces fun p hp => (hpieces p hp).2
      rw [h, splitOn_joinPieces others fun p hp => (hothers p hp).2] at hsplit
      exact (map_injective_iff.mpr (append_left_injective folderSuffix)
        (append_cancel_right hsplit)).symm

theorem visited_prefix (pieces : List (List Char)) : visited pieces <+: pieces := by
  induction pieces using visited.induct with
  | case1 => exact prefix_rfl
  | case2 piece => exact prefix_rfl
  | case3 piece next pieces ih =>
    rw [visited, prefix_cons_inj]
    split
    · exact nil_prefix
    · exact ih

theorem filter_visited_iff (piece : List Char) (pieces : List (List Char)) :
    (visited (piece :: pieces)).filter (· ≠ []) = (piece :: pieces).filter (· ≠ []) ↔
      ∀ p ∈ pieces.dropWhile (· ≠ []), p = [] := by
  induction pieces generalizing piece with
  | nil => exact iff_of_true rfl fun p h => (not_mem_nil h).elim
  | cons next pieces ih =>
    have hcons : (visited (piece :: next :: pieces)).filter (· ≠ []) =
        (piece :: next :: pieces).filter (· ≠ []) ↔
        (if next = [] ∧ pieces ≠ [] then [] else visited (next :: pieces)).filter (· ≠ []) =
          (next :: pieces).filter (· ≠ []) := by
      rw [visited, filter_cons, filter_cons]
      split <;> simp
    rw [hcons]
    cases next with
    | nil =>
      cases pieces with
      | nil => simp [visited]
      | cons p pieces =>
        rw [if_pos ⟨rfl, cons_ne_nil _ _⟩, filter_nil, eq_comm, filter_eq_nil_iff]
        simp
    | cons c next =>
      rw [if_neg fun h => cons_ne_nil _ _ h.1, ih, dropWhile_cons_of_pos (by simp)]

theorem slash_notMem_splitOn {s piece : List Char} (h : piece ∈ s.splitOn '/') : '/' ∉ piece := by
  induction s generalizing piece with
  | nil =>
    rw [splitOn_nil, mem_singleton] at h
    rw [h]
    exact not_mem_nil
  | cons c s ih =>
    rw [splitOn_cons_eq_if_modifyHead] at h
    split at h
    · rcases mem_cons.mp h with rfl | h
      · exact not_mem_nil
      · exact ih h
    · next hc =>
      cases hsplit : s.splitOn '/' with
      | nil => exact absurd hsplit (splitOn_ne_nil _ _)
      | cons first pieces =>
        rw [hsplit] at h ih
        rcases mem_cons.mp h with rfl | h
        · intro hmem
          rcases mem_cons.mp hmem with rfl | hmem
          · exact hc (beq_self_eq_true _)
          · exact ih mem_cons_self hmem
        · exact ih (mem_cons_of_mem _ h)

theorem createPathStringFromFolderURI_eq (conv : PieceConversions) {aScheme : List Char}
    (hlocal : isLocalUri aScheme = true) (aFolderURI : List Char) :
    createPathStringFromFolderURI conv aFolderURI aScheme false =
      some (joinPieces ((visited ((aFolderURI.splitOn '/').drop 1)).filter (· ≠ []))) := by
  have hjoin : ['/'].intercalate (aFolderURI.splitOn '/') = aFolderURI :=
    intercalate_splitOn '/'
  have hslash := fun piece => @slash_notMem_splitOn aFolderURI piece
  have hne := splitOn_ne_nil '/' aFolderURI
  rw [createPathStringFromFolderURI]
  generalize aFolderURI.splitOn '/' = split at *
  cases split with
  | nil => exact absurd rfl hne
  | cons first pieces =>
    have hfirst := hslash first mem_cons_self
    cases pieces with
    | nil =>
      rw [intercalate_singleton] at hjoin
      rw [← hjoin, findChar, if_neg (by simpa using hfirst)]
      rfl
    | cons piece pieces =>
      rw [intercalate_cons_cons, append_assoc, singleton_append] at hjoin
      have hstart : findChar aFolderURI '/' 0 = first.length := by
        rw [← hjoin]
        simpa using findChar_append [] first _ hfirst
      have hloop := pathLoop_eq (addPiece conv aScheme false) pieces (s := ([], false))
        (fun p hp => hslash p (mem_cons_of_mem _ hp)) (Nat.lt_add_of_pos_right Nat.two_pos)
        hjoin.symm
      rw [hstart, drop_one, tail_cons, ← foldl_addPiece conv hlocal]
      exact hloop

/-- The pieces that the loop comes to are all those that are not empty exactly when nothing is
dropped. -/
theorem filter_visited_splitOn_iff (aFolderURI : List Char) :
    (visited ((aFolderURI.splitOn '/').drop 1)).filter (· ≠ []) =
      (aFolderURI.splitOn '/').filter (· ≠ []) ↔ NothingDropped aFolderURI := by
  rw [NothingDropped]
  have hne := splitOn_ne_nil '/' aFolderURI
  generalize aFolderURI.splitOn '/' = split at *
  cases split with
  | nil => exact absurd rfl hne
  | cons first pieces =>
    have hle := (( visited_prefix pieces).sublist.filter (· ≠ [])).length_le
    cases first with
    | cons c first =>
      refine iff_of_false (fun h => ?_) fun h => by simpa using h.1
      have hlength := congrArg List.length h
      rw [drop_one, tail_cons, filter_cons_of_pos (by simp), length_cons]
        at hlength
      omega
    | nil =>
      rw [filter_cons_of_neg (by simp), head?_cons, and_iff_right rfl]
      cases pieces with
      | nil => exact iff_of_true rfl fun p h => (not_mem_nil h).elim
      | cons piece pieces => exact filter_visited_iff piece pieces

/-- Of a URI whose pieces are not hashed: the loop ends, the path has the pieces that are not empty
exactly when nothing is dropped, and then other pieces have another path. -/
theorem createPathStringFromFolderURI_iff (conv : PieceConversions) {aScheme : List Char}
    (hlocal : isLocalUri aScheme = true) (aFolderURI : List Char) :
    ∃ path, createPathStringFromFolderURI conv aFolderURI aScheme false = some path ∧
      (path = joinPieces ((aFolderURI.splitOn '/').filter (· ≠ [])) ↔ NothingDropped aFolderURI) ∧
      (NothingDropped aFolderURI → ∀ other, NothingDropped other →
        createPathStringFromFolderURI conv other aScheme false = some path →
          (aFolderURI.splitOn '/').filter (· ≠ []) = (other.splitOn '/').filter (· ≠ [])) := by
  have hfilter : ∀ (uri : List Char) (pieces : List (List Char)), pieces.Sublist (uri.splitOn '/') →
      ∀ p ∈ pieces.filter (· ≠ []), p ≠ [] ∧ '/' ∉ p := by
    intro uri pieces hsub p hp
    obtain ⟨hmem, hne⟩ := mem_filter.mp hp
    exact ⟨of_decide_eq_true hne, slash_notMem_splitOn (hsub.subset hmem)⟩
  refine ⟨_, createPathStringFromFolderURI_eq conv hlocal aFolderURI, ⟨fun h => ?_, fun h => ?_⟩,
    fun h other hother hsame => ?_⟩
  · rw [← filter_visited_splitOn_iff]
    exact joinPieces_injective (hfilter _ _
      (( visited_prefix _).sublist.trans (drop_sublist 1 _))) (hfilter _ _ (.refl _)) h
  · rw [(filter_visited_splitOn_iff aFolderURI).mpr h]
  · rw [createPathStringFromFolderURI_eq conv hlocal, (filter_visited_splitOn_iff _).mpr h,
      (filter_visited_splitOn_iff _).mpr hother, Option.some.injEq] at hsame
    exact (joinPieces_injective (hfilter _ _ (.refl _)) (hfilter _ _ (.refl _)) hsame).symm

def PieceConversions.same : PieceConversions := ⟨id, id⟩

theorem createPathStringFromFolderURI_folders : isLocalUri "none".toList = true ∧
    ∃ path, createPathStringFromFolderURI .same "/folder1/folder2".toList "none".toList false =
      some path ∧ (path = joinPieces (("/folder1/folder2".toList.splitOn '/').filter (· ≠ [])) ↔
        NothingDropped "/folder1/folder2".toList) := by
  obtain ⟨path, hpath, hiff, -⟩ := createPathStringFromFolderURI_iff .same
    (show isLocalUri "none".toList = true by decide) "/folder1/folder2".toList
  exact ⟨by decide, path, hpath, hiff⟩

/-- The piece behind two slashes is dropped, so two folders have one path. -/
theorem not_createPathStringFromFolderURI :
    createPathStringFromFolderURI .same "/a//b".toList "none".toList false = some "a".toList ∧
      createPathStringFromFolderURI .same "/a//c".toList "none".toList false = some "a".toList ∧
      ("/a//b".toList.splitOn '/').filter (· ≠ []) = ["a".toList, "b".toList] ∧
      ("/a//c".toList.splitOn '/').filter (· ≠ []) = ["a".toList, "c".toList] := by
  decide +kernel

end CommCentral.Base
