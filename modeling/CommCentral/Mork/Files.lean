import CommCentral.Mork.Groups
import Mathlib.Order.Filter.AtTopBot.Basic

/-!
# Files with transaction groups

A file is committed content and a sequence of groups, each of them committed or
aborted, with content between them and perhaps a last group that is not ended.
It should be read back as if its aborted groups were not there.

* `Content` is text that the parser reads without an error; its events are what
  the parser delivers then.
* `delivered` says what the parser does with groups: the look-ahead from an
  aborted group does not stop at the end of that group, so it runs into the next
  group, or else to the end of the file.
* `readsBack_iff_abortsLast`: a file is read back exactly if nothing that counts
  follows an aborted group.
-/

namespace CommCentral.Mork

open ByteStream

variable {n : ℕ}

/-! ## Files -/

def ReadsBeforeMarker (n : ℕ) (bytes : List UInt8) (events : List Event) : Prop :=
  ∃ k notes, exec (readContents n k) top (bytes ++ [ch '@']) =
    some ⟨(some (ch '@'), top), notes, [], false⟩ ∧ contentEvents notes = events

def ReadsAtEnd (n : ℕ) (bytes : List UInt8) (events : List Event) : Prop :=
  ∃ k c r notes rest eof, exec (readContents n k) top bytes =
    some ⟨(c, r), notes, rest, eof⟩ ∧ c ≠ some (ch '@') ∧
      (r.errors = [] ∧ r.isDone = true ∧ r.isBroken = false) ∧ contentEvents notes = events

structure Content where
  bytes : List UInt8
  events : List Event
  plain : IsPlain bytes
  /-- It is read without an error, in front of a group marker and at the end of the file. -/
  reads : ∀ᶠ n in Filter.atTop, ReadsBeforeMarker n bytes events ∧ ReadsAtEnd n bytes events

inductive Ending where
  | committed
  | aborted
  deriving DecidableEq, Repr

/-- A group with the content behind it. -/
structure Group where
  id : GroupId
  content : Content
  ending : Ending
  /-- What follows up to the next group. -/
  after : Content

def Group.close (group : Group) : List UInt8 :=
  match group.ending with
  | .committed => group.id.commit
  | .aborted => abort

/-- The text of a group and of what follows it, but for the first at sign. -/
def Group.body (group : Group) : List UInt8 :=
  group.id.start ++ (group.content.bytes ++ ch '@' :: (group.close ++ group.after.bytes))

/-- The events that the group and what follows it contribute. -/
def Group.events (group : Group) : List Event :=
  match group.ending with
  | .committed => group.content.events ++ group.after.events
  | .aborted => group.after.events

/-- A group that is not ended. -/
structure Unterminated where
  id : GroupId
  bytes : List UInt8
  plain : IsPlain bytes

structure File where
  committed : Content
  groups : List Group
  /-- A last group that is not ended. -/
  unterminated : Option Unterminated

def groupBytes (unterminated : Option Unterminated) : List Group → List UInt8
  | [] => unterminated.elim [] fun u => ch '@' :: (u.id.start ++ u.bytes)
  | group :: groups => ch '@' :: (group.body ++ groupBytes unterminated groups)

def File.bytes (file : File) : List UInt8 :=
  file.committed.bytes ++ groupBytes file.unterminated file.groups

/-- The events of a file with its aborted groups deleted. -/
def File.events (file : File) : List Event :=
  file.committed.events ++ file.groups.flatMap Group.events

/-! ## The parse of a file -/

/-- What the parser delivers of the groups, `none` if it raises an error. -/
def delivered (unterminated : Option Unterminated) : List Group → Option (List Event)
  | [] => some []
  | group :: groups =>
    match group.ending with
    | .committed => (delivered unterminated groups).map (group.events ++ ·)
    | .aborted => if groups.isEmpty && unterminated.isNone then some [] else none

/-- The parse delivers events, or it fails. -/
def HasOutcome (A : Phase) : Option (List Event) → Prop
  | some es => Delivers A es
  | none => Fails A

theorem Leads.hasOutcome {A B : Phase} {es : List Event} {o : Option (List Event)}
    (h : Leads A B es) (h' : HasOutcome B o) : HasOutcome A (o.map (es ++ ·)) := by
  cases o with
  | none => exact h.fails h'
  | some es' => exact h.delivers h'

/-- Behind an aborted group there is nothing more, or the start of a group. -/
theorem groupBytes_cases (unterminated : Option Unterminated) (groups : List Group) :
    (groups = [] ∧ unterminated = none) ∨
      ((groups.isEmpty && unterminated.isNone) = false ∧
        ∃ (id : GroupId) (t : List UInt8),
          groupBytes unterminated groups = ch '@' :: (id.start ++ t)) := by
  cases groups with
  | nil =>
    cases unterminated with
    | none => exact Or.inl ⟨rfl, rfl⟩
    | some u => exact Or.inr ⟨rfl, u.id, u.bytes, rfl⟩
  | cons group groups =>
    refine Or.inr ⟨rfl, group.id, group.content.bytes ++ ch '@' ::
      (group.close ++ group.after.bytes) ++ groupBytes unterminated groups, ?_⟩
    rw [groupBytes, Group.body, List.append_assoc]

/-- The look-ahead over a plain text at the end of the file. -/
theorem findGroupEnd_plain_end (gid : ℕ) {w : List UInt8} (hw : IsPlain w)
    (hn : w.length + 1 ≤ n) :
    exec (findGroupEnd n gid) top w = some ⟨(false, top), [], [], true⟩ := by
  obtain ⟨m, hm, hrun⟩ := findGroupEnd_plain (r := top) (t := []) rfl (Or.inl rfl) gid hw
    (Nat.le_of_succ_le hn)
  obtain ⟨m, rfl⟩ : ∃ k, m = k + 1 := ⟨m - 1, by omega⟩
  rw [List.append_nil] at hrun
  rw [hrun, findGroupEnd_nil]

/-- The look-ahead from an aborted group goes on behind it. -/
theorem findGroupEnd_aborted (gid : ℕ) {w : List UInt8} (hw : IsPlain w) (u : List UInt8)
    (hn : w.length + 1 ≤ n) :
    ∃ m, n ≤ m + w.length + 1 ∧ exec (findGroupEnd n gid) top (w ++ ch '@' :: (abort ++ u)) =
      exec (findGroupEnd m gid) top u := by
  obtain ⟨m, hm, hrun⟩ := findGroupEnd_plain (r := top) (t := ch '@' :: (abort ++ u)) rfl
    (Or.inr rfl) gid hw (Nat.le_of_succ_le hn)
  obtain ⟨m, rfl⟩ : ∃ k, m = k + 1 := ⟨m - 1, by omega⟩
  exact ⟨m, by omega, hrun.trans (findGroupEnd_abort rfl m gid u)⟩

theorem leads_committed {group : Group} (hgroup : group.ending = .committed) (t : List UInt8)
    (hn : group.id.digits.length + group.content.bytes.length + 2 ≤ n)
    (hread : ReadsBeforeMarker n group.content.bytes group.content.events) :
    Leads (AtSign n outside (group.body ++ t)) (At n outside (group.after.bytes ++ t))
      group.content.events := by
  obtain ⟨k, notes, hk, hnotes⟩ := hread
  obtain ⟨m, hm, hrun⟩ := findGroupEnd_plain (r := top)
    (t := ch '@' :: (group.id.commit ++ (group.after.bytes ++ t))) rfl (Or.inr rfl)
    group.id.value group.content.plain (n := n) (by omega)
  obtain ⟨rest, eof, hfind⟩ := findGroupEnd_commit (r := top) rfl group.id (n := m) (by omega)
    (group.after.bytes ++ t)
  have hbody : group.body ++ t = group.id.start ++ (group.content.bytes ++
      ch '@' :: (group.id.commit ++ (group.after.bytes ++ t))) := by
    rw [Group.body, Group.close, hgroup]
    simp
  rw [hbody, ← hnotes]
  exact leads_commit group.id (by omega) hk (hrun.trans hfind)

section

variable {group : Group} (hgroup : group.ending = .aborted)

include hgroup

theorem body_of_aborted (t : List UInt8) :
    group.body ++ t = group.id.start ++ (group.content.bytes ++
      ch '@' :: (abort ++ (group.after.bytes ++ t))) := by
  rw [Group.body, Group.close, hgroup]
  simp

/-- An aborted group at the end of the file hides the content behind it. -/
theorem delivers_aborted
    (hn : group.id.digits.length + group.content.bytes.length + group.after.bytes.length + 2 ≤ n) :
    Delivers (AtSign n outside (group.body ++ [])) [] := by
  obtain ⟨m, hm, hrun⟩ := findGroupEnd_aborted group.id.value group.content.plain
    group.after.bytes (n := n) (by omega)
  have hfind := hrun.trans (findGroupEnd_plain_end _ group.after.plain (by omega))
  rw [body_of_aborted hgroup, List.append_nil]
  exact (leads_skip group.id (by omega) hfind).delivers (delivers_end (by omega))

/-- An aborted group with a group behind it is an error. -/
theorem fails_aborted (id : GroupId) (t : List UInt8)
    (hn : group.id.digits.length + group.content.bytes.length + group.after.bytes.length + 3 ≤ n) :
    Fails (AtSign n outside (group.body ++ ch '@' :: (id.start ++ t))) := by
  obtain ⟨m, hm, hrun⟩ := findGroupEnd_aborted group.id.value group.content.plain
    (group.after.bytes ++ ch '@' :: (id.start ++ t)) (n := n) (by omega)
  obtain ⟨m', hm', hrun'⟩ := findGroupEnd_plain (r := top) (t := ch '@' :: (id.start ++ t)) rfl
    (Or.inr rfl) group.id.value group.after.plain (n := m) (by omega)
  obtain ⟨m', rfl⟩ : ∃ k, m' = k + 2 := ⟨m' - 2, by omega⟩
  obtain ⟨rest, eof, hfind⟩ := findGroupEnd_start (r := top) rfl m' group.id.value id t
  rw [body_of_aborted hgroup]
  exact fails_skip group.id (by omega) (hrun.trans (hrun'.trans hfind))

end

theorem delivers_unterminated (u : Unterminated)
    (hn : u.id.digits.length + u.bytes.length + 2 ≤ n) :
    Delivers (AtSign n outside (u.id.start ++ u.bytes)) [] :=
  (leads_skip u.id (by omega) (findGroupEnd_plain_end _ u.plain (by omega))).delivers
    (delivers_end (by omega))

theorem leads_content {content : Content}
    (hread : ReadsBeforeMarker n content.bytes content.events) (t : List UInt8) :
    Leads (At n outside (content.bytes ++ ch '@' :: t)) (AtSign n outside t) content.events := by
  obtain ⟨k, notes, hk, hnotes⟩ := hread
  have hlead := leads_contents false 0 hk t
  rwa [List.append_assoc, hnotes] at hlead

/-- What the parser does with content and the groups behind it. -/
theorem hasOutcome_groups (unterminated : Option Unterminated) (groups : List Group)
    (content : Content) :
    ∀ᶠ n in Filter.atTop,
      HasOutcome (At n outside (content.bytes ++ groupBytes unterminated groups))
        ((delivered unterminated groups).map (content.events ++ ·)) := by
  induction groups generalizing content with
  | nil =>
    cases unterminated with
    | none =>
      filter_upwards [content.reads] with n hcontent
      obtain ⟨-, k, c, r, notes, rest, eof, hk, hc, hr, hnotes⟩ := hcontent
      have hend := delivers_contents false 0 hc hk hr
      rw [groupBytes]
      simpa [delivered, HasOutcome, hnotes, outside] using hend
    | some u =>
      filter_upwards [content.reads,
        Filter.eventually_ge_atTop (u.id.digits.length + u.bytes.length + 2)]
        with n hcontent hn
      exact (leads_content hcontent.1 _).hasOutcome (o := some []) (delivers_unterminated u hn)
  | cons group groups ih =>
    filter_upwards [content.reads, group.content.reads, ih group.after,
      Filter.eventually_ge_atTop (group.id.digits.length + group.content.bytes.length +
        group.after.bytes.length + 3)] with n hcontent hgroups hrest hn
    refine (leads_content hcontent.1 _).hasOutcome ?_
    cases hgroup : group.ending with
    | committed =>
      have hlead := leads_committed hgroup (groupBytes unterminated groups)
        (by omega) hgroups.1
      have hout := hlead.hasOutcome hrest
      simpa [delivered, hgroup, Group.events, Option.map_map, Function.comp_def] using hout
    | aborted =>
      rw [delivered, hgroup]
      rcases groupBytes_cases unterminated groups with ⟨rfl, rfl⟩ | ⟨hlast, id, t, ht⟩
      · exact delivers_aborted hgroup (by omega)
      · simp only [hlast, ht]
        exact fails_aborted hgroup id t (by omega)

theorem HasOutcome.eq_some {A : Phase} {o : Option (List Event)} {es : List Event}
    (h : HasOutcome A o) (hes : Delivers A es) : o = some es := by
  obtain ⟨j, hj⟩ := hes
  cases o with
  | none =>
    obtain ⟨j', hj'⟩ := h
    obtain ⟨res, hres, hgood, -⟩ := hj j'
    obtain ⟨res', hres', hbad⟩ := hj' j
    rw [Nat.add_comm, hres] at hres'
    cases hres'
    exact absurd hgood.1 hbad
  | some es' =>
    obtain ⟨j', hj'⟩ := h
    obtain ⟨res, hres, -, rfl⟩ := hj j'
    obtain ⟨res', hres', -, rfl⟩ := hj' j
    rw [Nat.add_comm, hres] at hres'
    cases hres'
    rfl

theorem leads_start (n : ℕ) (file : List UInt8) :
    Leads (fun k => parse n k file) (At n outside file) [] := by
  refine ⟨1, ⟨(), [], file, false⟩, rfl, fun k => ?_⟩
  show scan (parseMore n (1 + k)) Parser.new file = _
  rw [Nat.add_comm, parseMore]
  simp [Parser.new, Reading.new, parseChunk, startParse, At, outside, top]

/-- The file is read back: for all large bounds on the loops and on the chunks the parse
succeeds and delivers the events of the file with its aborted groups deleted. -/
def File.ReadsBack (file : File) : Prop :=
  ∀ᶠ n in Filter.atTop, Delivers (fun k => parse n k file.bytes) file.events

/-- An aborted group is followed by no group, terminated or not, and by no content that
delivers anything. -/
def AbortsLast (unterminated : Option Unterminated) (groups : List Group) : Prop :=
  ∀ before group behind, groups = before ++ group :: behind → group.ending = .aborted →
    behind = [] ∧ unterminated = none ∧ group.after.events = []

theorem abortsLast_cons (unterminated : Option Unterminated) (group : Group)
    (groups : List Group) :
    AbortsLast unterminated (group :: groups) ↔
      (group.ending = .aborted → groups = [] ∧ unterminated = none ∧ group.after.events = []) ∧
        AbortsLast unterminated groups := by
  constructor
  · intro h
    exact ⟨h [] group groups rfl, fun before g behind hgs =>
      h (group :: before) g behind (by rw [hgs]; rfl)⟩
  · rintro ⟨hgroup, h⟩ before g behind hgs
    cases before with
    | nil =>
      cases hgs
      exact hgroup
    | cons b before =>
      cases hgs
      exact h before g behind rfl

/-- The events of the file are delivered exactly under the condition. -/
theorem delivered_eq_some_iff (unterminated : Option Unterminated) (groups : List Group) :
    delivered unterminated groups = some (groups.flatMap Group.events) ↔
      AbortsLast unterminated groups := by
  induction groups with
  | nil => simp [delivered, AbortsLast]
  | cons group groups ih =>
    rw [abortsLast_cons, ← ih, delivered]
    cases hgroup : group.ending with
    | committed => simp
    | aborted =>
      cases groups with
      | cons g groups => simp
      | nil =>
        cases unterminated <;> simp [Group.events, hgroup, delivered, eq_comm]

/-- What is read back is what `delivered` says. -/
theorem readsBack_iff_delivered (file : File) :
    file.ReadsBack ↔
      delivered file.unterminated file.groups = some (file.groups.flatMap Group.events) := by
  have hout : ∀ᶠ n in Filter.atTop, HasOutcome (fun k => parse n k file.bytes)
      ((delivered file.unterminated file.groups).map (file.committed.events ++ ·)) := by
    filter_upwards [hasOutcome_groups file.unterminated file.groups file.committed] with n hn
    simpa [Function.comp_def] using (leads_start n file.bytes).hasOutcome hn
  have hevents : (delivered file.unterminated file.groups).map (file.committed.events ++ ·) =
      some file.events ↔
        delivered file.unterminated file.groups = some (file.groups.flatMap Group.events) := by
    rw [File.events]
    simp
  rw [← hevents]
  constructor
  · intro h
    obtain ⟨n, hn, hes⟩ := (hout.and h).exists
    exact hn.eq_some hes
  · intro h
    rw [h] at hout
    exact hout

/-- The groups of a file are atomic exactly if an aborted group is followed by no group, ended
or not, and by no content that delivers anything. -/
theorem readsBack_iff_abortsLast (file : File) :
    file.ReadsBack ↔ AbortsLast file.unterminated file.groups :=
  (readsBack_iff_delivered file).trans (delivered_eq_some_iff _ _)

/-! ## A lost group -/

def Content.empty : Content where
  bytes := []
  events := []
  plain := by simp [IsPlain]
  reads := by
    filter_upwards [Filter.eventually_ge_atTop 3] with n hn
    obtain ⟨n, rfl⟩ := Nat.exists_eq_add_of_le' hn
    refine ⟨⟨1, [], ?_, rfl⟩, 1, none, { top with isDone := true }, [], [], true, ?_, by simp,
      ⟨rfl, rfl, rfl⟩, rfl⟩
    · simp +decide [readContents, readItem, nextChar, skipWhite]
    · simp +decide [readContents, readItem, nextChar, skipWhite, Prog.Result.andThen]

/-- The row `[1]`. -/
def Content.row : Content where
  bytes := [ch '[', ch '1', ch ']']
  events := [.onNewRow ⟨1, 0, none⟩ false, .onRowEnd]
  plain := by simp +decide [IsPlain]
  reads := by
    filter_upwards [Filter.eventually_ge_atTop 9] with n hn
    obtain ⟨n, rfl⟩ := Nat.exists_eq_add_of_le' hn
    refine ⟨⟨2, [.event (.onNewRow ⟨1, 0, none⟩ false), .event .onRowEnd], ?_, rfl⟩,
      2, some (ch '['), { top with isDone := true, state := .done },
      [.event (.onNewRow ⟨1, 0, none⟩ false), .event .onRowEnd], [], true, ?_, by decide,
      ⟨rfl, rfl, rfl⟩, rfl⟩
    · rfl
    · rfl

/-- A committed group behind an aborted one, each with a row. -/
def abortedThenCommitted : File where
  committed := .empty
  groups :=
    [⟨⟨[ch '1'], by decide, by decide⟩, .row, .aborted, .empty⟩,
     ⟨⟨[ch '2'], by decide, by decide⟩, .row, .committed, .empty⟩]
  unterminated := none

/-- The committed group is lost. -/
theorem abortedThenCommitted_not_readsBack :
    abortedThenCommitted.events = [.onNewRow ⟨1, 0, none⟩ false, .onRowEnd] ∧
      ¬ abortedThenCommitted.ReadsBack := by
  refine ⟨rfl, fun h => ?_⟩
  rw [readsBack_iff_delivered] at h
  cases h

/-- The parse of the file ends with an error and without an event. -/
example : (parse 40 40 abortedThenCommitted.bytes).map
    (fun res => (res.value.2.reading.errors, contentEvents res.out)) =
      some (["expected '\x7d' after @$$"], []) := by decide +kernel

end CommCentral.Mork
