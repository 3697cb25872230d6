import Mathlib.Data.List.Basic

/-!
# Well-nested markup

A marked-up text is a list of pieces: text, tags that open and tags that close.
A tag that closes gives the name of the tag that it closes.  The pieces are
balanced when every tag that is opened is closed once, the innermost one first
(`Balanced`).  A writer that keeps the open tags in a stack writes balanced
pieces when what it writes closes its stack (`Closes`).

Where no text holds the first character of a tag and no tag holds the last one,
deleting the tags from what is written leaves the text (`deleteTags_render`).
-/

namespace Markup

open List

variable {α : Type*}

inductive Piece (α : Type*) where
  | text (s : List α)
  /-- The begin of a tag, with its attributes. -/
  | opened (tag : List α)
  | closed (name : List α)

/-! ## Balance -/

variable {name : List α → List α}

/-- Every tag that is opened is closed once, the innermost one first. -/
inductive Balanced (name : List α → List α) : List (Piece α) → Prop where
  | nil : Balanced name []
  | text (s : List α) {ps : List (Piece α)} : Balanced name ps → Balanced name (.text s :: ps)
  | element (tag : List α) {body ps : List (Piece α)} :
      Balanced name body → Balanced name ps →
        Balanced name (.opened tag :: (body ++ .closed (name tag) :: ps))

/-- The open tags, the innermost first, are closed once, and so is every tag that is opened. -/
inductive Closes (name : List α → List α) : List (List α) → List (Piece α) → Prop where
  | nil {ps : List (Piece α)} : Balanced name ps → Closes name [] ps
  | cons (tag : List α) {stack : List (List α)} {body ps : List (Piece α)} :
      Balanced name body → Closes name stack ps →
        Closes name (tag :: stack) (body ++ .closed (name tag) :: ps)

variable {stack tags : List (List α)} {ps : List (Piece α)} {tag : List α}

theorem Closes.balanced (h : Closes name [] ps) : Balanced name ps := by
  cases h with
  | nil h => exact h

theorem Closes.text (s : List α) (h : Closes name stack ps) :
    Closes name stack (.text s :: ps) := by
  cases h with
  | nil h => exact .nil (.text s h)
  | cons tag hbody hps => exact .cons tag (.text s hbody) hps

theorem Closes.closed (h : Closes name stack ps) :
    Closes name (tag :: stack) (.closed (name tag) :: ps) :=
  .cons tag .nil h

theorem Closes.opened (h : Closes name (tag :: stack) ps) :
    Closes name stack (.opened tag :: ps) := by
  cases h with
  | cons _ hbody hrest =>
    cases hrest with
    | nil hrest => exact .nil (.element tag hbody hrest)
    | @cons next _ between _ hbetween hrest =>
      have h := Closes.cons next (Balanced.element tag hbody hbetween) hrest
      rwa [cons_append, append_assoc, cons_append] at h

theorem Closes.closedAll (h : Closes name stack ps) :
    Closes name (tags ++ stack) (tags.map (fun tag => .closed (name tag)) ++ ps) := by
  induction tags with
  | nil => exact h
  | cons tag tags ih => exact ih.closed

theorem Closes.openedAll (h : Closes name (tags.reverse ++ stack) ps) :
    Closes name stack (tags.map .opened ++ ps) := by
  induction tags generalizing stack with
  | nil => exact h
  | cons tag tags ih =>
    rw [reverse_cons, append_assoc] at h
    exact (ih h).opened

/-! ## What is written -/

def Piece.render (lt slash gt : α) : Piece α → List α
  | .text s => s
  | .opened tag => [lt] ++ tag ++ [gt]
  | .closed name => [lt, slash] ++ name ++ [gt]

/-- The characters of a marked-up text. -/
def render (lt slash gt : α) (ps : List (Piece α)) : List α := ps.flatMap (Piece.render lt slash gt)

theorem render_append (lt slash gt : α) (ps qs : List (Piece α)) :
    render lt slash gt (ps ++ qs) = render lt slash gt ps ++ render lt slash gt qs :=
  flatMap_append

def Piece.content : Piece α → List α
  | .text s => s
  | .opened _ => []
  | .closed _ => []

/-- The text without the tags. -/
def content (ps : List (Piece α)) : List α := ps.flatMap Piece.content

theorem content_append (ps qs : List (Piece α)) : content (ps ++ qs) = content ps ++ content qs :=
  flatMap_append

/-- The text of a piece holds no begin of a tag, and its tag no end of one. -/
def Piece.Clean (lt gt : α) : Piece α → Prop
  | .text s => lt ∉ s
  | .opened tag => gt ∉ tag
  | .closed name => gt ∉ name

variable [DecidableEq α] {lt slash gt : α}

def deleteTags (lt gt : α) (inTag : Bool) : List α → List α
  | [] => []
  | c :: s =>
    match inTag with
    | true => deleteTags lt gt (c ≠ gt) s
    | false => if c = lt then deleteTags lt gt true s else c :: deleteTags lt gt false s

theorem deleteTags_text {s t : List α} (h : lt ∉ s) :
    deleteTags lt gt false (s ++ t) = s ++ deleteTags lt gt false t := by
  induction s with
  | nil => rfl
  | cons c s ih =>
    obtain ⟨hc, hs⟩ := ne_and_not_mem_of_not_mem_cons h
    rw [cons_append, deleteTags, if_neg (Ne.symm hc), ih hs, cons_append]

theorem deleteTags_inTag {s t : List α} (h : gt ∉ s) :
    deleteTags lt gt true (s ++ gt :: t) = deleteTags lt gt false t := by
  induction s with
  | nil => rw [List.nil_append, deleteTags, decide_eq_false (not_not_intro rfl)]
  | cons c s ih =>
    obtain ⟨hc, hs⟩ := ne_and_not_mem_of_not_mem_cons h
    rw [cons_append, deleteTags, decide_eq_true (Ne.symm hc), ih hs]

theorem deleteTags_tag {s t : List α} (h : gt ∉ s) :
    deleteTags lt gt false (lt :: (s ++ gt :: t)) = deleteTags lt gt false t := by
  rw [deleteTags, if_pos rfl, deleteTags_inTag h]

theorem deleteTags_render (hslash : slash ≠ gt) (h : ∀ p ∈ ps, p.Clean lt gt) :
    deleteTags lt gt false (render lt slash gt ps) = content ps := by
  induction ps with
  | nil => rfl
  | cons p ps ih =>
    have hp := h p (.head _)
    have ih := ih fun q hq => h q (.tail _ hq)
    rw [render, content, flatMap_cons, flatMap_cons, ← content, ← ih]
    cases p with
    | text s => exact deleteTags_text hp
    | opened tag =>
      rw [Piece.render, append_assoc]
      exact deleteTags_tag hp
    | closed name =>
      have hname : gt ∉ slash :: name := not_mem_cons_of_ne_of_not_mem hslash.symm hp
      rw [Piece.render, append_assoc]
      exact deleteTags_tag hname

end Markup
