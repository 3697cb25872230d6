import CommCentral.JsMime.MimeParser

/-!
# The calls of the MIME parser

A call on a chain is said to lead from what the emitter has seen to a chain and
what it has seen then, provided that what is noted of the call is good.  The
rules follow the way the calls are composed.

* A call that returns ends in a chain of the given kind.
* A call that does not return has come to what the emitter may have seen.
-/

namespace CommCentral.JsMime.MimeParser

open List JsString

/-- The call leads to a chain, from what the emitter has seen before. -/
structure Leads (good : ParserNote → Prop) (seen : List ParserEvent → Prop)
    (goal : List PartParser → List ParserEvent → Prop) (events : List ParserEvent)
    (result : ChainResult) : Prop where
  returned : (∀ note ∈ result.notes, good note) → result.status = .returned →
    goal result.chain (events ++ result.events)
  stopped : (∀ note ∈ result.notes, good note) → result.status ≠ .returned →
    seen (events ++ result.events)

/-- A chain below a parser, with what the emitter has seen since. -/
def Within (parser : PartParser) (before : List ParserEvent)
    (goal : List PartParser → List ParserEvent → Prop) (chain : List PartParser)
    (events : List ParserEvent) : Prop :=
  ∃ rest below, chain = parser :: rest ∧ events = before ++ below ∧ goal rest below

namespace Leads

variable {good : ParserNote → Prop} {seen seen' : List ParserEvent → Prop}
  {goal goal' : List PartParser → List ParserEvent → Prop} {events : List ParserEvent}
  {result : ChainResult} {chain : List PartParser}

theorem seen_events (h : Leads good seen goal events result)
    (hgood : ∀ note ∈ result.notes, good note) (hseen : ∀ chain events, goal chain events → seen events) :
    seen (events ++ result.events) := by
  cases hstatus : result.status with
  | returned => exact hseen _ _ (h.returned hgood hstatus)
  | threw => exact h.stopped hgood (by rw [hstatus]; decide)
  | running => exact h.stopped hgood (by rw [hstatus]; decide)

theorem ok (h : goal chain events) : Leads good seen goal events (.ok chain) where
  returned _ _ := by rwa [ChainResult.ok, List.append_nil]
  stopped _ h := absurd rfl h

theorem throw (h : seen events) : Leads good seen goal events (.throw chain) where
  returned _ h := by cases h
  stopped _ _ := by rwa [ChainResult.throw, List.append_nil]

theorem running (h : seen events) : Leads good seen goal events ⟨chain, [], [], .running⟩ where
  returned _ h := by cases h
  stopped _ _ := by rwa [List.append_nil]

theorem after {before : List ParserEvent} {notes : List ParserNote}
    (h : (∀ note ∈ notes, good note) → Leads good seen goal (events ++ before) result) :
    Leads good seen goal events (result.after before notes) where
  returned hgood hstatus := by
    have h := (h fun note hnote => hgood note (mem_append_left _ hnote)).returned
      (fun note hnote => hgood note (mem_append_right _ hnote)) hstatus
    rwa [append_assoc] at h
  stopped hgood hstatus := by
    have h := (h fun note hnote => hgood note (mem_append_left _ hnote)).stopped
      (fun note hnote => hgood note (mem_append_right _ hnote)) hstatus
    rwa [append_assoc] at h

theorem noting {notes : List ParserNote}
    (h : (∀ note ∈ notes, good note) → Leads good seen goal events result) :
    Leads good seen goal events (result.after [] notes) :=
  after fun hgood => by
    rw [List.append_nil]
    exact h hgood

theorem mono (h : Leads good seen goal events result)
    (hgoal : ∀ chain events, goal chain events → goal' chain events)
    (hseen : ∀ events, seen events → seen' events) : Leads good seen' goal' events result where
  returned hgood hstatus := hgoal _ _ (h.returned hgood hstatus)
  stopped hgood hstatus := hseen _ (h.stopped hgood hstatus)

theorem of_stopped (h : Leads good seen goal events result) (hstatus : result.status ≠ .returned) :
    Leads good seen goal' events result where
  returned _ h := absurd h hstatus
  stopped := h.stopped

theorem andThen {call : List PartParser → ChainResult} (h : Leads good seen goal events result)
    (hcall : ∀ chain events, goal chain events → Leads good seen goal' events (call chain)) :
    Leads good seen goal' events (result.andThen call) := by
  rw [ChainResult.andThen]
  cases hstatus : result.status with
  | returned =>
    exact after fun hgood => hcall _ _ (h.returned hgood hstatus)
  | threw => exact h.of_stopped (by rw [hstatus]; decide)
  | running => exact h.of_stopped (by rw [hstatus]; decide)

/-- A call of the subparser, with what the emitter has seen before its part. -/
theorem within {before : List ParserEvent} {parser : PartParser}
    (h : Leads good seen goal events result)
    (hseen : ∀ events, seen events → seen' (before ++ events)) :
    Leads good seen' (Within parser before goal) (before ++ events)
      (onSubparser parser result) where
  returned hgood hstatus :=
    ⟨_, _, rfl, append_assoc .., h.returned hgood hstatus⟩
  stopped hgood hstatus := by
    rw [append_assoc]
    exact hseen _ (h.stopped hgood hstatus)

end Leads

end CommCentral.JsMime.MimeParser
