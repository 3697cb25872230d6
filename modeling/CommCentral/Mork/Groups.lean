import CommCentral.Mork.GroupEnd

/-!
# Reading groups

A parse goes on in chunks.  `Leads A B es` says that it comes from the place `A`
to the place `B` and delivers the content events `es` on the way, whatever the
number of chunks that are left; `Delivers` and `Fails` are the two ways in which
it can end.  Places are the one before a chunk (`At`) and the one behind the at
sign of a group marker (`AtSign`).
-/

namespace CommCentral.Mork

open Option ByteStream Prog Result

/-! ## Places -/

/-- The parser's fields between two items. -/
def top : Reading := { Reading.new with state := .port }

@[simp] theorem top_errors : top.errors = [] := rfl
@[simp] theorem top_state : top.state = .port := rfl
@[simp] theorem top_isDone : top.isDone = false := rfl
@[simp] theorem top_isBroken : top.isBroken = false := rfl

/-- The end of `OnPortState`. -/
def endPort (more : Bool) : Parse Unit := do
  if !more then
    modify fun σ => { σ with inPort := false }
    content (call .onPortEnd)
  if !(← content good) then content (modify fun r => { r with state := .broken })

/-- The parser at a position, with a number of chunks to go. -/
def At (n : ℕ) (σ : Parser) (s : List UInt8) (k : ℕ) :
    Option (Prog.Result Note (Unit × Parser)) :=
  scan (parseMore n k) σ s

def AtSign (n : ℕ) (σ : Parser) (s : List UInt8) (k : ℕ) :
    Option (Prog.Result Note (Unit × Parser)) :=
  scan (do endPort (← readAt n σ.inGroup); parseMore n k) σ s

/-! ## What a parse delivers -/

/-- An event of the content: not one of the port or of a group. -/
def Event.isContent : Event → Bool
  | onNewPort | onPortEnd | onNewGroup _ | onGroupCommitEnd | onGroupAbortEnd => false
  | _ => true

def contentEvents (notes : List Note) : List Event :=
  notes.filterMap fun
    | .event e => if e.isContent then some e else none
    | .warning _ => none

@[simp] theorem contentEvents_nil : contentEvents [] = [] := rfl

@[simp] theorem contentEvents_append (notes notes' : List Note) :
    contentEvents (notes ++ notes') = contentEvents notes ++ contentEvents notes' :=
  List.filterMap_append

/-- The run of a parse, by the number of chunks that it may take. -/
abbrev Phase := ℕ → Option (Prog.Result Note (Unit × Parser))

/-- The parse comes from one place to another and delivers the events on the way. -/
def Leads (A B : Phase) (es : List Event) : Prop :=
  ∃ (j : ℕ) (r : Prog.Result Note Unit), contentEvents r.out = es ∧
    ∀ k, A (j + k) = (B k).map r.andThen

theorem Leads.trans {A B C : Phase} {es es' : List Event} (h : Leads A B es)
    (h' : Leads B C es') : Leads A C (es ++ es') := by
  obtain ⟨j, r, rfl, hr⟩ := h
  obtain ⟨j', r', rfl, hr'⟩ := h'
  refine ⟨j + j', r.andThen r', contentEvents_append .., fun k => ?_⟩
  rw [Nat.add_assoc, hr, hr', map_map, andThen_andThen]

/-- The parser is done, without an error. -/
def Parser.Succeeded (σ : Parser) : Prop :=
  σ.reading.errors = [] ∧ σ.reading.isDone = true ∧ σ.reading.isBroken = false

/-- The parse succeeds and delivers the events. -/
def Delivers (A : Phase) (es : List Event) : Prop :=
  ∃ j, ∀ k, ∃ res, A (j + k) = some res ∧ res.value.2.Succeeded ∧ contentEvents res.out = es

/-- The parse raises an error. -/
def Fails (A : Phase) : Prop :=
  ∃ j, ∀ k, ∃ res, A (j + k) = some res ∧ res.value.2.reading.errors ≠ []

theorem Leads.delivers {A B : Phase} {es es' : List Event} (h : Leads A B es)
    (h' : Delivers B es') : Delivers A (es ++ es') := by
  obtain ⟨j, r, rfl, hr⟩ := h
  obtain ⟨j', hB⟩ := h'
  refine ⟨j + j', fun k => ?_⟩
  obtain ⟨res, hres, hgood, rfl⟩ := hB k
  refine ⟨r.andThen res, ?_, hgood, contentEvents_append ..⟩
  rw [Nat.add_assoc, hr, hres]
  rfl

theorem Leads.fails {A B : Phase} {es : List Event} (h : Leads A B es) (h' : Fails B) :
    Fails A := by
  obtain ⟨j, r, rfl, hr⟩ := h
  obtain ⟨j', hB⟩ := h'
  refine ⟨j + j', fun k => ?_⟩
  obtain ⟨res, hres, hbad⟩ := hB k
  refine ⟨r.andThen res, ?_, hbad⟩
  rw [Nat.add_assoc, hr, hres]
  rfl

/-! ## Content -/

/-- All items up to a group marker, the end of the file or an error. -/
def readContents (n : ℕ) : ℕ → Read (Option UInt8)
  | 0 => outOfFuel
  | k + 1 => do
    let c ← readItem n
    if c = none || c = some (ch '@') || (← get) ≠ top then return c else readContents n k

theorem exec_readContents {n k : ℕ} {s : List UInt8}
    {res : Result Note (Option UInt8 × Reading)}
    (h : exec (readContents n (k + 1)) top s = some res) :
    (exec (readItem n) top s = some res ∧
      ((res.value.1 = none ∨ res.value.1 = some (ch '@')) ∨ res.value.2 ≠ top)) ∨
    ∃ c notes rest eof res', exec (readItem n) top s = some ⟨(some c, top), notes, rest, eof⟩ ∧
      c ≠ ch '@' ∧ exec (readContents n k) top rest = some res' ∧
      res = andThen (⟨(some c, top), notes, rest, eof⟩ : Result Note _) res' := by
  rw [readContents, exec_bind, bind_eq_some_iff] at h
  obtain ⟨⟨⟨c, r⟩, notes, rest, eof⟩, hitem, h⟩ := h
  by_cases hstop : (c = none ∨ c = some (ch '@')) ∨ r ≠ top
  · simp [hstop, andThen] at h
    subst h
    exact Or.inl ⟨hitem, hstop⟩
  · push Not at hstop
    obtain ⟨⟨hc, hat⟩, rfl⟩ := hstop
    obtain ⟨c, rfl⟩ := ne_none_iff_exists'.mp hc
    have hat' : c ≠ ch '@' := fun hc' => hat (by rw [hc'])
    simp [hat'] at h
    obtain ⟨res', hres', rfl⟩ := h
    exact Or.inr ⟨c, notes, rest, eof, res', hitem, hat', hres', rfl⟩

variable {n : ℕ} {g : Bool} {gid : ℕ} {s rest : List UInt8} {notes : List Note} {eof : Bool}

theorem leads_item {c : UInt8} (hc : c ≠ ch '@')
    (h : exec (readItem n) top s = some ⟨(some c, top), notes, rest, eof⟩) :
    Leads (At n ⟨top, true, g, gid⟩ s) (At n ⟨top, true, g, gid⟩ rest) (contentEvents notes) := by
  refine ⟨1, ⟨(), notes, rest, eof⟩, rfl, fun k => ?_⟩
  rw [Nat.add_comm, At, parseMore]
  simp [parseChunk, onPortState, readContent, h, hc, setState, At]
  rfl

theorem leads_sign
    (h : exec (readItem n) top s = some ⟨(some (ch '@'), top), notes, rest, eof⟩) :
    Leads (At n ⟨top, true, g, gid⟩ s) (AtSign n ⟨top, true, g, gid⟩ rest)
      (contentEvents notes) := by
  refine ⟨1, ⟨(), notes, rest, eof⟩, rfl, fun k => ?_⟩
  rw [Nat.add_comm, At, parseMore]
  simp [parseChunk, onPortState, readContent, h, AtSign, endPort, map_bind,
    bind_map, bind_assoc, Function.comp_def]
  rfl

theorem scan_parseMore_done {σ : Parser} (h : σ.reading.isDone = true) (k : ℕ) (s : List UInt8) :
    scan (parseMore n (k + 1)) σ s = some ⟨((), σ), [], s, false⟩ := by
  rw [parseMore]
  simp [h]

theorem delivers_last {c : Option UInt8} {r : Reading} (hc : c ≠ some (ch '@'))
    (h : exec (readItem n) top s = some ⟨(c, r), notes, rest, eof⟩)
    (hr : r.errors = [] ∧ r.isDone = true ∧ r.isBroken = false) :
    Delivers (At n ⟨top, true, g, gid⟩ s) (contentEvents notes) := by
  refine ⟨2, fun k => ?_⟩
  rw [Nat.add_comm, At, parseMore]
  cases c with
  | none =>
    simp [parseChunk, onPortState, readContent, h, setState, hr, scan_parseMore_done,
      Parser.Succeeded, andThen, contentEvents, Event.isContent]
  | some c =>
    have hc' : c ≠ ch '@' := fun hc' => hc (by rw [hc'])
    simp [parseChunk, onPortState, readContent, h, hc', setState, hr, scan_parseMore_done,
      Parser.Succeeded, andThen]

theorem leads_contents (g : Bool) (gid : ℕ) {k : ℕ}
    (h : exec (readContents n k) top s = some ⟨(some (ch '@'), top), notes, [], false⟩)
    (t : List UInt8) :
    Leads (At n ⟨top, true, g, gid⟩ (s ++ t)) (AtSign n ⟨top, true, g, gid⟩ t)
      (contentEvents notes) := by
  induction k generalizing s notes with
  | zero => cases h
  | succ k ih =>
    rcases exec_readContents h with ⟨hitem, -⟩ | ⟨c, ns, rest, eof, res', hitem, hc, hrest, hres⟩
    · exact leads_sign (run_append hitem rfl t)
    · obtain ⟨v, ns', u, eof'⟩ := res'
      simp only [andThen, mk.injEq, Bool.false_eq, 
        Bool.or_eq_false_iff] at hres
      obtain ⟨rfl, rfl, rfl, rfl, rfl⟩ := hres
      rw [contentEvents_append]
      exact (leads_item hc (run_append hitem rfl t)).trans (ih hrest)

theorem delivers_contents (g : Bool) (gid : ℕ) {k : ℕ} {c : Option UInt8} {r : Reading} (hc : c ≠ some (ch '@'))
    (h : exec (readContents n k) top s = some ⟨(c, r), notes, rest, eof⟩)
    (hr : r.errors = [] ∧ r.isDone = true ∧ r.isBroken = false) :
    Delivers (At n ⟨top, true, g, gid⟩ s) (contentEvents notes) := by
  induction k generalizing s notes eof with
  | zero => cases h
  | succ k ih =>
    rcases exec_readContents h with ⟨hitem, -⟩ | ⟨d, ns, u, eof', res', hitem, hd, hrest, hres⟩
    · exact delivers_last hc hitem hr
    · obtain ⟨v, ns', u', eof''⟩ := res'
      obtain ⟨rfl, rfl, rfl, -⟩ := hres
      rw [contentEvents_append]
      exact (leads_item hd hitem).delivers (ih hrest)

/-! ## Groups -/

/-- The parser between two items, outside of groups. -/
def outside : Parser := ⟨top, true, false, 0⟩

/-- The parser between two items of a group. -/
def inside (id : GroupId) : Parser := ⟨top, true, true, id.value⟩

theorem scan_readAt_skip (id : GroupId) {u : List UInt8} {r : Reading}
    (hn : id.digits.length + 1 ≤ n)
    (h : exec (findGroupEnd n id.value) top u = some ⟨(false, r), [], rest, eof⟩) :
    scan (readAt n false) outside (id.start ++ u) =
      some ⟨(r.errors.isEmpty, ⟨r, true, false, id.value⟩), [], rest, eof⟩ := by
  have hread := exec_readHex (n := n) (r := top) rfl id.nonempty id.hex (c := ch '{') (by decide)
    hn (ch '@' :: u)
  simp +decide [readAt, readAtOutside, outside, GroupId.start, matchPattern, readGroup, hread]
  rw [show hexValue 0 id.digits = id.value from rfl, h]
  simp [andThen]

/-- What reading a group does at once: its first item. -/
def firstItem (n : ℕ) : Parse Bool := do
  let _ ← readContent n (readAtInside n)
  content (call .onGroupCommitEnd)
  content good

/-- A group whose end is found is read from its start. -/
theorem scan_readAt_group (id : GroupId) {u u' : List UInt8} {v : Bool × Parser} {eof' : Bool}
    (hn : id.digits.length + 1 ≤ n)
    (h : exec (findGroupEnd n id.value) top u = some ⟨(true, top), [], rest, eof⟩)
    (hfirst : scan (firstItem n) (inside id) u = some ⟨v, notes, u', eof'⟩) :
    scan (readAt n false) outside (id.start ++ u) =
      some ⟨v, .event (.onNewGroup id.value) :: notes, u', eof || eof'⟩ := by
  have hread := exec_readHex (n := n) (r := top) rfl id.nonempty id.hex (c := ch '{') (by decide)
    hn (ch '@' :: u)
  simp +decide [readAt, readAtOutside, outside, GroupId.start, matchPattern, readGroup, hread]
  rw [show hexValue 0 id.digits = id.value from rfl, h]
  rw [firstItem] at hfirst
  simp [inside] at hfirst ⊢
  revert hfirst
  generalize scan (readContent n (readAtInside n)) _ u = o
  cases o <;> simp [andThen]
  rintro rfl rfl rfl rfl
  simp

theorem scan_readAtInside (id : GroupId) (hn : id.digits.length + 1 ≤ n) (t : List UInt8) :
    scan (readAtInside n) (inside id) (id.commit ++ t) = some ⟨(true, outside), [], t, false⟩ := by
  have hread := exec_readEndGroupId (n := n) (r := top) rfl id hn t
  simp +decide [readAtInside, inside, GroupId.commit, matchPattern, hread, outside]

theorem scan_firstItem_sign (id : GroupId) (hn : id.digits.length + 1 ≤ n) {t : List UInt8}
    (h : exec (readItem n) top s = some ⟨(some (ch '@'), top), notes, id.commit ++ t, eof⟩) :
    scan (firstItem n) (inside id) s =
      some ⟨(true, outside), notes ++ [.event .onGroupCommitEnd], t, eof⟩ := by
  have hend := scan_readAtInside id hn t
  simp only [inside] at hend ⊢
  simp [firstItem, readContent, h, hend, andThen, outside]

theorem scan_firstItem_item (id : GroupId) {c : UInt8} (hc : c ≠ ch '@')
    (h : exec (readItem n) top s = some ⟨(some c, top), notes, rest, eof⟩) :
    scan (firstItem n) (inside id) s =
      some ⟨(true, inside id), notes ++ [.event .onGroupCommitEnd], rest, eof⟩ := by
  simp [firstItem, readContent, inside, h, hc, setState, andThen]

theorem leads_atSign (σ σ' : Parser)
    (h : scan (readAt n σ.inGroup) σ s = some ⟨(true, σ'), notes, rest, eof⟩)
    (hσ' : σ'.reading.errors = []) :
    Leads (AtSign n σ s) (At n σ' rest) (contentEvents notes) := by
  refine ⟨0, ⟨(), notes, rest, eof⟩, rfl, fun k => ?_⟩
  simp [AtSign, endPort, h, hσ', At]
  rfl

theorem leads_commit (id : GroupId) (hn : id.digits.length + 1 ≤ n) {k : ℕ} {w t : List UInt8}
    (hw : exec (readContents n k) top (w ++ [ch '@']) =
      some ⟨(some (ch '@'), top), notes, [], false⟩)
    (hfind : exec (findGroupEnd n id.value) top (w ++ ch '@' :: (id.commit ++ t)) =
      some ⟨(true, top), [], rest, eof⟩) :
    Leads (AtSign n outside (id.start ++ (w ++ ch '@' :: (id.commit ++ t)))) (At n outside t)
      (contentEvents notes) := by
  have happ : w ++ ch '@' :: (id.commit ++ t) = w ++ [ch '@'] ++ (id.commit ++ t) := by simp
  rw [happ] at hfind ⊢
  cases k with
  | zero => cases hw
  | succ k =>
    rcases exec_readContents hw with ⟨hitem, -⟩ | ⟨c, ns, u, eof', res', hitem, hc, hrest, hres⟩
    · have hfirst := scan_firstItem_sign id hn (run_append hitem rfl (id.commit ++ t))
      have hlead := leads_atSign outside outside (scan_readAt_group id hn hfind hfirst) rfl
      simpa [contentEvents, Event.isContent] using hlead
    · obtain ⟨v, ns', u', eof''⟩ := res'
      simp only [andThen, mk.injEq, Bool.false_eq,
        Bool.or_eq_false_iff] at hres
      obtain ⟨rfl, rfl, rfl, rfl, rfl⟩ := hres
      have hfirst := scan_firstItem_item id hc (run_append hitem rfl (id.commit ++ t))
      have hlead := leads_atSign outside (inside id) (scan_readAt_group id hn hfind hfirst) rfl
      have hcont := leads_contents true id.value hrest (id.commit ++ t)
      have hend := leads_atSign (inside id) outside (scan_readAtInside id hn t) rfl
      have hall := (hlead.trans hcont).trans hend
      simpa [contentEvents, Event.isContent] using hall

/-- A group whose end is not found, up to the end of the file, is passed over. -/
theorem leads_skip (id : GroupId) {u : List UInt8} (hn : id.digits.length + 1 ≤ n)
    (h : exec (findGroupEnd n id.value) top u = some ⟨(false, top), [], rest, eof⟩) :
    Leads (AtSign n outside (id.start ++ u)) (At n ⟨top, true, false, id.value⟩ rest) [] :=
  leads_atSign outside _ (scan_readAt_skip id hn h) rfl

/-- An error of the look-ahead breaks the parser. -/
theorem fails_skip (id : GroupId) {u : List UInt8} {text : String}
    (hn : id.digits.length + 1 ≤ n)
    (h : exec (findGroupEnd n id.value) top u =
      some ⟨(false, { top with errors := [text] }), [], rest, eof⟩) :
    Fails (AtSign n outside (id.start ++ u)) := by
  have hskip := scan_readAt_skip id hn h
  refine ⟨2, fun k => ?_⟩
  rw [Nat.add_comm, AtSign, show outside.inGroup = false from rfl, parseMore]
  simp [hskip, endPort, parseChunk, stopParse, closeOpen, top, Reading.new]
  by_cases hid : id.value = 0 <;> simp [hid, parseMore, andThen]

theorem delivers_end (hn : 2 ≤ n) : Delivers (At n ⟨top, true, g, gid⟩ []) [] := by
  obtain ⟨n, rfl⟩ := Nat.exists_eq_add_of_le' hn
  have hitem : exec (readItem (n + 2)) top [] =
      some ⟨(none, { top with isDone := true }), [], [], true⟩ := by
    simp [readItem, nextChar, skipWhite, andThen]
  exact delivers_last (by simp) hitem ⟨rfl, rfl, rfl⟩

end CommCentral.Mork
