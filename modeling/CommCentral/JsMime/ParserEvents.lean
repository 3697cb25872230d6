import CommCentral.JsMime.ParserCalls

/-!
# What the MIME parser tells its emitter

Every part of a message starts and ends once, and the parts are well nested.

* *Words.*  The calls for a part are a word: the part starts, then comes its
  data or come the words of its children, and the part ends.  The children of a
  multipart are numbered from one on.
* *Open parts.*  The chain of a part that has not ended tells how its word goes
  on.  `_dispatchData` keeps this, and `_dispatchEOF` ends the word.
-/

namespace CommCentral.JsMime.MimeParser

open List JsString

/-! ## Words -/

/-- The calls of the emitter for a part, from its start to its end. -/
inductive PartWord (read : HeaderReader) : Bool → JsString → List ParserEvent → Prop where
  | leaf {inDigest : Bool} {partNum : JsString} (headers : JsString) (data : List JsString) :
    PartWord read inDigest partNum
      (.startPart partNum headers :: (data.map (.deliverPartData partNum) ++ [.endPart partNum]))
  | multipart {inDigest : Bool} {partNum : JsString} {boundary : Option JsString} {digest : Bool}
      (headers : JsString) (words : List (List ParserEvent)) :
    read inDigest headers = some (.multipart boundary digest) →
    (∀ k word, words[k]? = some word → PartWord read digest (childNum partNum (k + 1)) word) →
    PartWord read inDigest partNum
      (.startPart partNum headers :: (words.flatten ++ [.endPart partNum]))
  | message {inDigest : Bool} {partNum : JsString} {decoder : Option Conversion}
      (headers : JsString) (word : List ParserEvent) :
    read inDigest headers = some (.message decoder) →
    PartWord read false (messageNum partNum) word →
    PartWord read inDigest partNum (.startPart partNum headers :: (word ++ [.endPart partNum]))

def Begun (read : HeaderReader) (inDigest : Bool) (partNum : JsString)
    (events : List ParserEvent) : Prop :=
  ∃ word, PartWord read inDigest partNum word ∧ events <+: word

variable {options : ParserOptions} {read : HeaderReader} {calls : ParserCalls}
  {inDigest : Bool} {partNum buffer : JsString} {chain rest : List PartParser}
  {parser : PartParser} {word : List ParserEvent}

def ChildWords (read : HeaderReader) (digest : Bool) (partNum : JsString)
    (words : List (List ParserEvent)) : Prop :=
  ∀ k word, words[k]? = some word → PartWord read digest (childNum partNum (k + 1)) word

variable {digest : Bool}

theorem ChildWords.nil : ChildWords read digest partNum [] := by
  intro k word h
  cases h

theorem ChildWords.append {words : List (List ParserEvent)}
    (h : ChildWords read digest partNum words)
    (hword : PartWord read digest (childNum partNum (words.length + 1)) word) :
    ChildWords read digest partNum (words ++ [word]) := by
  intro k found hfound
  rcases Nat.lt_trichotomy k words.length with hk | hk | hk
  · rw [getElem?_append_left hk] at hfound
    exact h k found hfound
  · rw [hk, getElem?_concat_length] at hfound
    cases hfound
    rwa [hk]
  · rw [getElem?_eq_none] at hfound
    · cases hfound
    · rw [length_append, length_singleton]
      omega

theorem begun_nil : Begun read inDigest partNum [] := ⟨_, .leaf [] [], nil_prefix⟩

variable {events : List ParserEvent} {headers : JsString}

theorem begun_child {boundary : Option JsString} {words : List (List ParserEvent)}
    (hread : read inDigest headers = some (.multipart boundary digest))
    (hwords : ChildWords read digest partNum words)
    (h : Begun read digest (childNum partNum (words.length + 1)) events) :
    Begun read inDigest partNum (.startPart partNum headers :: words.flatten ++ events) := by
  obtain ⟨word, hword, hevents⟩ := h
  refine ⟨_, .multipart headers (words ++ [word]) hread (hwords.append hword), ?_⟩
  rw [flatten_append, flatten_singleton, append_assoc, ← cons_append,
    prefix_append_right_inj]
  exact hevents.trans (prefix_append _ _)

theorem begun_message {decoder : Option Conversion}
    (hread : read inDigest headers = some (.message decoder))
    (h : Begun read false (messageNum partNum) events) :
    Begun read inDigest partNum ([.startPart partNum headers] ++ events) := by
  obtain ⟨word, hword, hevents⟩ := h
  refine ⟨_, .message headers word hread hword, ?_⟩
  rw [singleton_append, prefix_cons_inj]
  exact hevents.trans (prefix_append _ _)

/-! ## Open parts -/

/-- The chain of a part that has not ended, with the calls there were for it. -/
inductive OpenPart (read : HeaderReader) :
    Bool → JsString → List PartParser → List ParserEvent → Prop where
  | headers {inDigest : Bool} {partNum : JsString} {parser : PartParser} {rest : List PartParser} :
    parser.inDigest = inDigest → parser.state = .parsingHeaders → parser.boundary = none → parser.subPartNum = [] →
    parser.savedBuffer = [] →
    OpenPart read inDigest partNum (parser :: rest) []
  | leaf {inDigest : Bool} {partNum : JsString} {parser : PartParser} {rest : List PartParser}
      (headers : JsString) (data : List JsString) :
    parser.inDigest = inDigest → parser.state = .sendToEmitter → parser.boundary = none →
    OpenPart read inDigest partNum (parser :: rest)
      (.startPart partNum headers :: data.map (.deliverPartData partNum))
  | hole {inDigest : Bool} {partNum : JsString} {parser : PartParser} {rest : List PartParser}
      {word : List ParserEvent} :
    parser.inDigest = inDigest → parser.state = .sendToBlackHole → parser.boundary = none →
    parser.savedBuffer = [] →
    PartWord read inDigest partNum (word ++ [.endPart partNum]) →
    OpenPart read inDigest partNum (parser :: rest) word
  | prologue {inDigest : Bool} {partNum : JsString} {parser sub : PartParser} {rest : List PartParser}
      {boundary : Option JsString} {digest : Bool} (headers : JsString) :
    read inDigest headers = some (.multipart boundary digest) →
    parser.inDigest = inDigest → parser.state = .sendToBlackHole → parser.boundary ≠ none → parser.subPartNum = [] →
    parser.savedBuffer = [] → sub.inDigest = digest →
    OpenPart read inDigest partNum (parser :: sub :: rest) [.startPart partNum headers]
  /-- A child of a multipart is open. -/
  | child {inDigest : Bool} {partNum : JsString} {parser : PartParser} {rest : List PartParser}
      {boundary : Option JsString} {digest : Bool} {word : List ParserEvent} (headers : JsString)
      (words : List (List ParserEvent)) :
    read inDigest headers = some (.multipart boundary digest) →
    parser.inDigest = inDigest → parser.state = .sendToSubparser → parser.boundary ≠ none →
    parser.subPartNum = childNum partNum (words.length + 1) → parser.count = words.length + 2 →
    ChildWords read digest partNum words →
    OpenPart read digest (childNum partNum (words.length + 1)) rest word →
    OpenPart read inDigest partNum (parser :: rest)
      (.startPart partNum headers :: words.flatten ++ word)
  | message {inDigest : Bool} {partNum : JsString} {parser : PartParser} {rest : List PartParser}
      {decoder : Option Conversion} {word : List ParserEvent} (headers : JsString) :
    read inDigest headers = some (.message decoder) →
    parser.inDigest = inDigest → parser.state = .sendToSubparser → parser.boundary = none →
    parser.subPartNum = messageNum partNum →
    OpenPart read false (messageNum partNum) rest word →
    OpenPart read inDigest partNum (parser :: rest) ([.startPart partNum headers] ++ word)

theorem OpenPart.begun (h : OpenPart read inDigest partNum chain word) :
    Begun read inDigest partNum word := by
  induction h with
  | headers => exact begun_nil
  | leaf headers data =>
    exact ⟨_, .leaf headers data, by rw [← cons_append]; exact prefix_append _ _⟩
  | hole _ _ _ _ hword => exact ⟨_, hword, prefix_append _ _⟩
  | prologue headers hread =>
    exact ⟨_, .multipart headers [] hread ChildWords.nil, by simp⟩
  | child headers words hread _ _ _ _ _ hwords _ ih => exact begun_child hread hwords ih
  | message headers hread _ _ _ _ _ ih => exact begun_message hread ih

/-- A part whose headers are not complete has not begun. -/
theorem OpenPart.of_parsingHeaders (h : OpenPart read inDigest partNum (parser :: rest) word)
    (hstate : parser.state = .parsingHeaders) :
    word = [] ∧ parser.inDigest = inDigest ∧ parser.boundary = none ∧ parser.subPartNum = [] ∧
      parser.savedBuffer = [] := by
  cases h with
  | headers hdigest _ hboundary hnum hsaved => exact ⟨rfl, hdigest, hboundary, hnum, hsaved⟩
  | leaf _ _ _ h => rw [h] at hstate; cases hstate
  | hole _ h => rw [h] at hstate; cases hstate
  | prologue _ _ _ h => rw [h] at hstate; cases hstate
  | child _ _ _ _ h => rw [h] at hstate; cases hstate
  | message _ _ _ h => rw [h] at hstate; cases hstate

/-- The chain of a part that has ended, with the calls there were for it. -/
inductive EndedPart (read : HeaderReader) :
    Bool → JsString → List PartParser → List ParserEvent → Prop where
  | ended {inDigest : Bool} {partNum : JsString} {parser : PartParser} {rest : List PartParser}
      {word : List ParserEvent} :
    parser.inDigest = inDigest → PartWord read inDigest partNum word →
    EndedPart read inDigest partNum (parser :: rest) word

def splitBoundary (chain : List PartParser) : Option JsString :=
  chain.head?.bind PartParser.boundary

theorem decimal_ne_nil (n : ℕ) : decimal n ≠ [] := by
  rw [decimal, Ne, map_eq_nil_iff]
  exact Nat.toDigits_ne_nil

theorem childNum_ne_nil (partNum : JsString) (count : ℕ) : childNum partNum count ≠ [] := by
  exact append_ne_nil_of_right_ne_nil _ (decimal_ne_nil count)

/-! ## Data -/

/-- The kinds of body keep to the headers that were read. -/
theorem openPart_startBody {kind : BodyKind} (hread : read inDigest headers = some kind)
    (hdigest : parser.inDigest = inDigest) (hboundary : parser.boundary = none)
    (hnum : parser.subPartNum = []) (hsaved : parser.savedBuffer = []) :
    OpenPart read inDigest partNum (startBody options kind partNum parser rest)
      [.startPart partNum headers] := by
  unfold startBody
  split
  next => exact .leaf headers [] hdigest rfl hboundary
  next =>
    cases kind with
    | multipart boundary digest =>
      cases boundary with
      | none => exact .hole hdigest rfl hboundary hsaved (.leaf headers [])
      | some boundary =>
        exact .prologue headers hread hdigest rfl (Option.some_ne_none _) hnum hsaved rfl
    | message decoder =>
      exact .message headers hread hdigest rfl hboundary rfl (.headers rfl rfl rfl rfl rfl)
    | leaf decoder => exact .leaf headers [] hdigest rfl hboundary

/-- The calls of a part keep its word. -/
structure KeepsWord (read : HeaderReader) (calls : ParserCalls) : Prop where
  dispatchData {inDigest : Bool} {partNum : JsString} {chain : List PartParser}
    {word : List ParserEvent} (buffer : JsString) (checkSplit : Bool) :
    OpenPart read inDigest partNum chain word →
    Leads (fun _ => True) (Begun read inDigest partNum) (OpenPart read inDigest partNum) word
      (calls.dispatchData partNum buffer checkSplit chain)
  /-- `_dispatchData`, of what comes in front of a delimiter. -/
  dispatchFront {inDigest : Bool} {partNum : JsString} {chain : List PartParser}
    {word : List ParserEvent} (buffer : JsString) :
    OpenPart read inDigest partNum chain word → splitBoundary chain ≠ none →
    Leads (fun _ => True) (Begun read inDigest partNum)
      (fun chain word => OpenPart read inDigest partNum chain word ∧ splitBoundary chain ≠ none)
      word (calls.dispatchData partNum buffer false chain)
  dispatchEOF {inDigest : Bool} {partNum : JsString} {chain : List PartParser}
    {word : List ParserEvent} :
    OpenPart read inDigest partNum chain word →
    Leads (fun _ => True) (Begun read inDigest partNum) (EndedPart read inDigest partNum) word
      (calls.dispatchEOF partNum chain)

/-- A converted buffer leaves everything but what is saved as it was. -/
theorem applyDataConversion_eq {parser' : PartParser} {converted : JsString}
    (h : applyDataConversion parser buffer = some (parser', converted)) :
    ∃ saved, parser' = { parser with savedBuffer := saved } := by
  unfold applyDataConversion at h
  split at h
  next =>
    cases h
    exact ⟨parser.savedBuffer, rfl⟩
  next convert _ =>
    obtain ⟨result, -, hresult⟩ := Option.map_eq_some_iff.mp h
    cases hresult
    exact ⟨result.2, rfl⟩

/-- Data does not change where the delimiters are looked for. -/
theorem sendData_leads (hcalls : KeepsWord read calls)
    (h : OpenPart read inDigest partNum (parser :: rest) word) (buffer : JsString) :
    Leads (fun _ => True) (Begun read inDigest partNum)
      (fun chain word => OpenPart read inDigest partNum chain word ∧
        splitBoundary chain = parser.boundary)
      word (sendData options calls partNum buffer parser rest) := by
  have hbegun := h.begun
  rw [sendData]
  cases h with
  | headers hdigest hstate hboundary hnum hsaved =>
    simp only [hstate]
    exact .ok ⟨.headers hdigest hstate hboundary hnum hsaved, rfl⟩
  | leaf headers data hdigest hstate hboundary =>
    simp only [hstate]
    split
    next => exact .ok ⟨.leaf headers data hdigest hstate hboundary, rfl⟩
    next =>
      cases hconvert : applyDataConversion parser buffer with
      | none => exact .throw hbegun
      | some result =>
        obtain ⟨parser', converted⟩ := result
        obtain ⟨saved, rfl⟩ := applyDataConversion_eq hconvert
        refine .after fun _ => .ok ⟨?_, rfl⟩
        split
        next =>
          rw [cons_append, ← map_singleton, ← map_append]
          exact .leaf headers _ hdigest hstate hboundary
        next =>
          rw [List.append_nil]
          exact .leaf headers data hdigest hstate hboundary
  | hole hdigest hstate hboundary hsaved hword =>
    simp only [hstate]
    exact .ok ⟨.hole hdigest hstate hboundary hsaved hword, rfl⟩
  | prologue headers hread hdigest hstate hboundary hnum hsaved hsub =>
    simp only [hstate]
    exact .ok ⟨.prologue headers hread hdigest hstate hboundary hnum hsaved hsub, rfl⟩
  | child headers words hread hdigest hstate hboundary hnum hcount hwords hsub =>
    simp only [hstate]
    cases hconvert : applyDataConversion parser buffer with
    | none => exact .throw hbegun
    | some result =>
      obtain ⟨parser', converted⟩ := result
      obtain ⟨saved, rfl⟩ := applyDataConversion_eq hconvert
      dsimp only
      split
      next =>
        rw [hnum]
        refine ((hcalls.dispatchData converted true hsub).within fun events hevents =>
          begun_child hread hwords hevents).mono ?_ fun _ h => h
        intro chain events hchain
        obtain ⟨rest, below, rfl, rfl, hchain⟩ := hchain
        exact ⟨.child headers words hread hdigest hstate hboundary rfl hcount hwords hchain, rfl⟩
      next =>
        exact .ok ⟨.child headers words hread hdigest hstate hboundary hnum hcount hwords hsub, rfl⟩
  | message headers hread hdigest hstate hboundary hnum hsub =>
    simp only [hstate]
    cases hconvert : applyDataConversion parser buffer with
    | none => exact .throw hbegun
    | some result =>
      obtain ⟨parser', converted⟩ := result
      obtain ⟨saved, rfl⟩ := applyDataConversion_eq hconvert
      dsimp only
      split
      next =>
        rw [hnum]
        refine ((hcalls.dispatchData converted true hsub).within fun events hevents =>
          begun_message hread hevents).mono ?_ fun _ h => h
        intro chain events hchain
        obtain ⟨rest, below, rfl, rfl, hchain⟩ := hchain
        exact ⟨.message headers hread hdigest hstate hboundary rfl hchain, rfl⟩
      next => exact .ok ⟨.message headers hread hdigest hstate hboundary hnum hsub, rfl⟩

/-! ## Delimiters -/

/-- The next child of a multipart is open, or there is none. -/
theorem openPart_nextPart {boundary : Option JsString} {sub : PartParser}
    (words : List (List ParserEvent)) (closing : Bool)
    (hread : read inDigest headers = some (.multipart boundary digest))
    (hdigest : parser.inDigest = inDigest) (hboundary : parser.boundary ≠ none)
    (hcount : parser.count = words.length + 1) (hwords : ChildWords read digest partNum words)
    (hsub : sub.inDigest = digest) :
    OpenPart read inDigest partNum (nextPart partNum closing parser (sub :: rest))
      (.startPart partNum headers :: words.flatten) := by
  cases closing with
  | false =>
    have h : OpenPart read digest (childNum partNum (words.length + 1)) [sub.resetParser] [] :=
      .headers hsub rfl rfl rfl rfl
    have hchild : OpenPart read inDigest partNum
        (nextPart partNum false parser (sub :: rest)) (.startPart partNum headers :: words.flatten ++ []) :=
      .child headers words hread hdigest rfl hboundary (congrArg (childNum partNum) hcount)
        (congrArg (· + 1) hcount) hwords h
    rwa [List.append_nil] at hchild
  | true => exact .hole hdigest rfl rfl rfl (.multipart headers words hread hwords)

theorem endSubpart_leads (hcalls : KeepsWord read calls) {seen : List ParserEvent → Prop}
    {before : List ParserEvent} {delivered : ChainResult}
    (hseen : ∀ events, Begun read inDigest partNum events → seen (before ++ events))
    (h : Leads (fun _ => True) seen (Within parser before (OpenPart read inDigest partNum)) events
      delivered) :
    Leads (fun _ => True) seen (Within parser before (EndedPart read inDigest partNum)) events
      (delivered.andThen fun chain =>
        onSubparser parser (calls.dispatchEOF partNum chain.tail)) := by
  refine h.andThen fun chain events hchain => ?_
  obtain ⟨rest, below, rfl, rfl, hopen⟩ := hchain
  exact (hcalls.dispatchEOF hopen).within hseen

theorem whenMultipart_leads (hcalls : KeepsWord read calls)
    (h : OpenPart read inDigest partNum chain word) (hboundary : splitBoundary chain ≠ none)
    (split : SplitResult) :
    Leads (fun _ => True) (Begun read inDigest partNum) (OpenPart read inDigest partNum) word
      (whenMultipart calls partNum split chain) := by
  cases h with
  | headers _ _ hnone => exact absurd hnone hboundary
  | leaf _ _ _ _ hnone => exact absurd hnone hboundary
  | hole _ _ hnone => exact absurd hnone hboundary
  | message _ _ _ _ hnone => exact absurd hnone hboundary
  | prologue headers hread hdigest hstate hboundary hnum hsaved hsub =>
    rw [whenMultipart, if_pos hnum]
    exact .ok (openPart_nextPart [] split.closing hread hdigest hboundary rfl .nil hsub)
  | @child _ _ parser rest boundary digest child headers words hread hdigest hstate hboundary hnum
      hcount hwords hsub =>
      have hnotnil : parser.subPartNum ≠ [] := by
        rw [hnum]
        exact childNum_ne_nil _ _
      rw [whenMultipart, if_neg hnotnil]
      simp only [hnum]
      generalize (if split.lineBreak = 0 then chopLineBreak parser.savedBuffer
        else parser.savedBuffer) = saved
      have hbegun : ∀ events, Begun read digest (childNum partNum (words.length + 1)) events →
          Begun read inDigest partNum (.startPart partNum headers :: words.flatten ++ events) :=
        fun events hevents => begun_child hread hwords hevents
      refine (endSubpart_leads hcalls hbegun ?_).andThen ?_
      · split
        next => exact (hcalls.dispatchData saved true hsub).within hbegun
        next => exact .ok ⟨_, _, rfl, rfl, hsub⟩
      · intro chain events hchain
        obtain ⟨rest, below, rfl, rfl, hended⟩ := hchain
        cases hended with
        | ended hdigestSub hword =>
          have hflatten : words.flatten ++ below = (words ++ [below]).flatten := by
            rw [flatten_append, flatten_singleton]
          rw [cons_append, hflatten]
          exact .ok (openPart_nextPart _ _ hread hdigest hboundary
            (by rw [hcount, length_append]; rfl) (hwords.append hword) hdigestSub)

/-! ## `_dispatchData` -/

section

variable (hcalls : KeepsWord read calls) (h : OpenPart read inDigest partNum chain word)

include hcalls h

theorem dispatchBody_leads (buffer : JsString) (checkSplit : Bool) :
    Leads (fun _ => True) (Begun read inDigest partNum) (OpenPart read inDigest partNum) word
      (dispatchBody options calls partNum buffer checkSplit chain) := by
  cases chain with
  | nil => exact .throw h.begun
  | cons parser rest =>
    rw [dispatchBody]
    split
    next split hsplit =>
      have hboundary : splitBoundary (parser :: rest) ≠ none := by
        intro hnone
        have hnone : parser.boundary = none := hnone
        rw [hnone] at hsplit
        simp at hsplit
      have hfront : Leads (fun _ => True) (Begun read inDigest partNum)
          (fun chain word => OpenPart read inDigest partNum chain word ∧
            splitBoundary chain ≠ none) word
          (if split.index > 0 then
            calls.dispatchData partNum (buffer.take split.index) false (parser :: rest)
          else .ok (parser :: rest)) := by
        split
        next => exact hcalls.dispatchFront _ h hboundary
        next => exact .ok ⟨h, hboundary⟩
      have hsplit := hfront.andThen fun chain events hchain =>
        whenMultipart_leads hcalls hchain.1 hchain.2 split
      refine hsplit.andThen fun chain events hchain => ?_
      dsimp only
      split
      next => exact hcalls.dispatchData _ true hchain
      next => exact .ok hchain
    next => exact (sendData_leads hcalls h buffer).mono (fun _ _ h => h.1) fun _ h => h

/-- `_dispatchData` keeps the word of a part. -/
theorem dispatchData_leads (buffer : JsString) (checkSplit : Bool) :
    Leads (fun _ => True) (Begun read inDigest partNum) (OpenPart read inDigest partNum) word
      (dispatchData options read calls partNum buffer checkSplit chain) := by
  cases chain with
  | nil => exact .throw h.begun
  | cons parser rest =>
    rw [dispatchData]
    split
    next hstate =>
      obtain ⟨rfl, rfl, hboundary, hnum, hsaved⟩ := h.of_parsingHeaders hstate
      dsimp only
      split
      next => exact .ok (.headers rfl hstate hboundary hnum hsaved)
      next headers body _ =>
        cases hread : read parser.inDigest headers with
        | none => exact .throw begun_nil
        | some kind =>
          refine .after fun _ => dispatchBody_leads hcalls ?_ body checkSplit
          exact openPart_startBody hread rfl hboundary hnum hsaved
    next => exact dispatchBody_leads hcalls h buffer checkSplit

/-- Without a look for delimiters, a multipart remains one. -/
theorem dispatchData_front_leads (hboundary : splitBoundary chain ≠ none) (buffer : JsString) :
    Leads (fun _ => True) (Begun read inDigest partNum)
      (fun chain word => OpenPart read inDigest partNum chain word ∧ splitBoundary chain ≠ none)
      word (dispatchData options read calls partNum buffer false chain) := by
  cases chain with
  | nil => exact .throw h.begun
  | cons parser rest =>
    have hstate : parser.state ≠ .parsingHeaders := by
      intro hstate
      exact hboundary (h.of_parsingHeaders hstate).2.2.1
    rw [dispatchData, if_neg hstate]
    exact (sendData_leads hcalls h buffer).mono (fun _ _ h => ⟨h.1, h.2 ▸ hboundary⟩) fun _ h => h

end

/-! ## `_dispatchEOF` -/

theorem flushData_leads (hcalls : KeepsWord read calls)
    (h : OpenPart read inDigest partNum (parser :: rest) word)
    (hstate : parser.state ≠ .parsingHeaders) :
    Leads (fun _ => True) (Begun read inDigest partNum)
      (fun chain word => EndedPart read inDigest partNum chain (word ++ [.endPart partNum]))
      word (flushData calls partNum parser rest) := by
  have hbegun := h.begun
  unfold flushData
  cases h with
  | headers _ h => exact absurd h hstate
  | leaf headers data hdigest hstate hboundary =>
    rw [if_neg (by rw [hstate]; decide)]
    split
    next => exact .ok (.ended hdigest (.leaf headers data))
    next => exact .throw hbegun
    next buffer _ =>
      refine .after fun _ => .ok (.ended hdigest ?_)
      split
      next =>
        rw [cons_append, ← map_singleton, ← map_append]
        exact .leaf headers _
      next =>
        rw [List.append_nil]
        exact .leaf headers data
  | hole hdigest hstate hboundary hsaved hword =>
    rw [if_neg (by rw [hstate]; decide), if_pos hsaved]
    exact .ok (.ended hdigest hword)
  | prologue headers hread hdigest hstate hboundary hnum hsaved hsub =>
    rw [if_neg (by rw [hstate]; decide), if_pos hsaved]
    exact .ok (.ended hdigest (.multipart headers [] hread ChildWords.nil))
  | @child _ _ parser rest boundary digest child headers words hread hdigest hstate hboundary hnum
      hcount hwords hsub =>
      have hseen : ∀ events, Begun read digest (childNum partNum (words.length + 1)) events →
          Begun read inDigest partNum (.startPart partNum headers :: words.flatten ++ events) :=
        fun events hevents => begun_child hread hwords hevents
      rw [if_pos hstate]
      simp only [hnum]
      refine .noting fun _ => (endSubpart_leads hcalls hseen ?_).andThen ?_
      · split
        next => exact .ok ⟨_, _, rfl, rfl, hsub⟩
        next => exact .throw (hseen _ hsub.begun)
        next => exact (hcalls.dispatchData _ true hsub).within hseen
      · intro chain events hchain
        obtain ⟨rest, below, rfl, rfl, hended⟩ := hchain
        cases hended with
        | ended hdigestSub hword =>
          have hflatten : words.flatten ++ below = (words ++ [below]).flatten := by
            rw [flatten_append, flatten_singleton]
          rw [cons_append, hflatten]
          exact .ok (.ended hdigest (.multipart headers _ hread (hwords.append hword)))
  | message headers hread hdigest hstate hboundary hnum hsub =>
    have hseen : ∀ events, Begun read false (messageNum partNum) events →
        Begun read inDigest partNum ([.startPart partNum headers] ++ events) :=
      fun events hevents => begun_message hread hevents
    rw [if_pos hstate]
    simp only [hnum]
    refine .noting fun _ => (endSubpart_leads hcalls hseen ?_).andThen ?_
    · split
      next => exact .ok ⟨_, _, rfl, rfl, hsub⟩
      next => exact .throw (hseen _ hsub.begun)
      next => exact (hcalls.dispatchData _ true hsub).within hseen
    · intro chain events hchain
      obtain ⟨rest, below, rfl, rfl, hended⟩ := hchain
      cases hended with
      | ended hdigestSub hword => exact .ok (.ended hdigest (.message headers _ hread hword))

/-- `_dispatchEOF` ends the word of a part. -/
theorem dispatchEOF_leads (hcalls : KeepsWord read calls)
    (h : OpenPart read inDigest partNum chain word) :
    Leads (fun _ => True) (Begun read inDigest partNum) (EndedPart read inDigest partNum) word
      (dispatchEOF read calls partNum chain) := by
  cases chain with
  | nil => exact .throw h.begun
  | cons parser rest =>
    rw [dispatchEOF]
    -- what is flushed ends the part, but for its last event
    refine @Leads.andThen (fun _ => True) _
      (fun chain word => EndedPart read inDigest partNum chain (word ++ [.endPart partNum]))
      _ _ _ _ ?_ fun chain events hended => .after fun _ => .ok hended
    split
    next hstate =>
      obtain ⟨rfl, rfl, -⟩ := h.of_parsingHeaders hstate
      split
      next => exact .throw begun_nil
      next => exact .after fun _ => .ok (.ended rfl (.leaf parser.headerData []))
    next hstate => exact flushData_leads hcalls h hstate

/-! ## Runs -/

theorem keepsWord_parserCalls (options : ParserOptions) (read : HeaderReader) (fuel : ℕ) :
    KeepsWord read (parserCalls options read fuel) := by
  induction fuel with
  | zero =>
    exact ⟨fun _ _ h => .running h.begun, fun _ h _ => .running h.begun,
      fun h => .running h.begun⟩
  | succ fuel ih =>
    exact ⟨fun buffer checkSplit h => dispatchData_leads ih h buffer checkSplit,
      fun buffer h hboundary => dispatchData_front_leads ih h hboundary buffer,
      fun h => dispatchEOF_leads ih h⟩

/-- A parser that has signalled the beginning, and whose message has not ended. -/
structure Started (read : HeaderReader) (parser : MimeParser) (word : List ParserEvent) :
    Prop where
  triggered : parser.triggeredCall = true
  events : parser.events = .startMessage :: word
  begun : Begun read false [] word
  /-- It is open while the calls return. -/
  openPart : parser.status = .returned → OpenPart read false [] parser.chain word

/-- A parser between two calls. -/
def Delivering (read : HeaderReader) (parser : MimeParser) : Prop :=
  (parser.triggeredCall = false ∧ parser.events = [] ∧ OpenPart read false [] parser.chain []) ∨
    ∃ word, Started read parser word

theorem started_triggerCall {parser : MimeParser} (h : Delivering read parser) :
    ∃ word, Started read parser.triggerCall word := by
  rw [triggerCall]
  cases h with
  | inl h =>
    obtain ⟨htriggered, hevents, hopen⟩ := h
    rw [if_neg (by rw [htriggered]; decide), hevents]
    exact ⟨[], rfl, rfl, begun_nil, fun _ => hopen⟩
  | inr h =>
    obtain ⟨word, hstarted⟩ := h
    rw [if_pos hstarted.triggered]
    exact ⟨word, hstarted⟩

/-- `deliverData` keeps the word of the message. -/
theorem delivering_deliverData {parser : MimeParser} (h : Delivering read parser) (fuel : ℕ)
    (buffer : JsString) : Delivering read (deliverData options read fuel parser buffer) := by
  rw [deliverData]
  split
  next => exact h
  next hstatus =>
    have hheld : Delivering read { parser with
        holdData := (conditionToEndOnCRLF (parser.holdData ++ buffer)).2 } := by
      cases h with
      | inl h => exact .inl h
      | inr h =>
        obtain ⟨word, hstarted⟩ := h
        exact .inr ⟨word, hstarted.triggered, hstarted.events, hstarted.begun, hstarted.openPart⟩
    dsimp only
    split
    next => exact hheld
    next =>
      obtain ⟨word, hstarted⟩ := started_triggerCall hheld
      have hopen := hstarted.openPart (by rw [triggerCall]; split <;> exact not_not.mp hstatus)
      have hleads := (keepsWord_parserCalls options read fuel).dispatchData
        (conditionToEndOnCRLF (parser.holdData ++ buffer)).1 true hopen
      refine .inr ⟨_, hstarted.triggered, ?_, ?_, hleads.returned fun _ _ => trivial⟩
      · rw [onChain, hstarted.events]
        rfl
      · exact hleads.seen_events (fun _ _ => trivial) fun _ _ h => h.begun

/-- The calls of `deliverData` keep the word of the message. -/
theorem delivering_deliverAll (options : ParserOptions) (read : HeaderReader) (fuel : ℕ)
    (chunks : List JsString) : Delivering read (deliverAll options read fuel chunks) := by
  rw [deliverAll]
  have hstart : Delivering read {} := .inl ⟨rfl, rfl, .headers rfl rfl rfl rfl rfl⟩
  generalize ({} : MimeParser) = parser at hstart ⊢
  induction chunks generalizing parser with
  | nil => exact hstart
  | cons chunk chunks ih => exact ih _ (delivering_deliverData hstart fuel chunk)

/-- A message is one part, between `startMessage` and `endMessage`. -/
def messageWord (tree : List ParserEvent) : List ParserEvent :=
  .startMessage :: (tree ++ [.endMessage])

/-- The calls come in front of the word of a message, behind the beginning. -/
def BegunMessage (read : HeaderReader) (events : List ParserEvent) : Prop :=
  ∃ tree, PartWord read false [] tree ∧ events <+: tree ++ [.endMessage]

/-- The calls are the word of a message, behind the beginning. -/
def EndedMessage (read : HeaderReader) (events : List ParserEvent) : Prop :=
  ∃ tree, PartWord read false [] tree ∧ events = tree ++ [.endMessage]

theorem Begun.message (h : Begun read false [] events) : BegunMessage read events := by
  obtain ⟨tree, htree, hevents⟩ := h
  exact ⟨tree, htree, hevents.trans (prefix_append _ _)⟩

/-- The calls that `deliverEOF` makes end the message. -/
theorem endMessage_leads (hcalls : KeepsWord read calls)
    {held : ChainResult}
    (hheld : Leads (fun _ => True) (Begun read false []) (OpenPart read false []) word held) :
    Leads (fun _ => True) (BegunMessage read) (fun _ => EndedMessage read) word
      (held.andThen fun chain => (calls.dispatchEOF [] chain).andThen fun chain =>
        (ChainResult.ok chain).after [.endMessage] []) := by
  refine (hheld.mono (fun _ _ h => h) fun _ h => h.message).andThen fun chain events hopen => ?_
  refine ((hcalls.dispatchEOF hopen).mono (fun _ _ h => h) fun _ h => h.message).andThen ?_
  intro chain events hended
  cases hended with
  | ended _ hword => exact .after fun _ => .ok ⟨_, hword, rfl⟩

theorem exists_tree {result : ChainResult}
    (h : Leads (fun _ => True) (BegunMessage read) (fun _ => EndedMessage read) word result) :
    ∃ tree, PartWord read false [] tree ∧ word ++ result.events <+: tree ++ [.endMessage] ∧
      (result.status = .returned → word ++ result.events = tree ++ [.endMessage]) := by
  by_cases hstatus : result.status = .returned
  · obtain ⟨tree, htree, hevents⟩ := h.returned (fun _ _ => trivial) hstatus
    exact ⟨tree, htree, hevents ▸ prefix_rfl, fun _ => hevents⟩
  · obtain ⟨tree, htree, hevents⟩ := h.stopped (fun _ _ => trivial) hstatus
    exact ⟨tree, htree, hevents, fun h => absurd h hstatus⟩

/-- `deliverEOF` comes to the end of the message. -/
theorem events_deliverEOF {parser : MimeParser} (h : Delivering read parser) (fuel : ℕ) :
    ∃ tree, PartWord read false [] tree ∧
      (deliverEOF options read fuel parser).events <+: messageWord tree ∧
      ((deliverEOF options read fuel parser).status = .returned →
        (deliverEOF options read fuel parser).events = messageWord tree) := by
  rw [deliverEOF]
  split
  next hstatus =>
    cases h with
    | inl h =>
      rw [h.2.1]
      exact ⟨_, .leaf [] [], nil_prefix, fun h => absurd h hstatus⟩
    | inr h =>
      obtain ⟨word, hstarted⟩ := h
      obtain ⟨tree, htree, hword⟩ := hstarted.begun
      refine ⟨tree, htree, ?_, fun h => absurd h hstatus⟩
      rw [hstarted.events, messageWord, prefix_cons_inj]
      exact hword.trans (prefix_append _ _)
  next hstatus =>
    obtain ⟨word, hstarted⟩ := started_triggerCall h
    have hopen := hstarted.openPart (by rw [triggerCall]; split <;> exact not_not.mp hstatus)
    have hcalls := keepsWord_parserCalls options read fuel
    have hheld : Leads (fun _ => True) (Begun read false []) (OpenPart read false []) word
        (if parser.triggerCall.holdData ≠ [] then
          (parserCalls options read fuel).dispatchData [] parser.triggerCall.holdData true
            parser.triggerCall.chain
        else .ok parser.triggerCall.chain) := by
      split
      next => exact hcalls.dispatchData _ true hopen
      next => exact .ok hopen
    obtain ⟨tree, htree, hevents, hreturned⟩ := exists_tree (endMessage_leads hcalls hheld)
    rw [onChain, hstarted.events]
    exact ⟨tree, htree, (prefix_cons_inj _).mpr hevents,
      fun h => congrArg (List.cons _) (hreturned h)⟩

/-- Without `pruneat` the emitter is always called. -/
theorem trace_eq (format : BodyFormat) (parser : MimeParser) :
    trace { bodyformat := format } parser = parser.events := by
  rw [trace, filter_eq_self]
  intro event _
  cases event with
  | startMessage => rfl
  | startPart => rfl
  | deliverPartData => rfl
  | endPart => rfl
  | endMessage => rfl

/-- The calls of `deliverEOF` come behind those before. -/
theorem prefix_deliverEOF (parser : MimeParser) (fuel : ℕ) :
    parser.events <+: (deliverEOF options read fuel parser).events := by
  rw [deliverEOF]
  split
  next => exact prefix_rfl
  next =>
    refine List.IsPrefix.trans ?_ (prefix_append _ _)
    rw [triggerCall]
    split
    next => exact prefix_rfl
    next => exact prefix_append _ _

/-- On any fuel, what the emitter has seen comes in front of the word of a message,
and it is the word when `deliverEOF` has returned. -/
theorem trace_parse (format : BodyFormat) (read : HeaderReader) (fuel : ℕ)
    (chunks : List JsString) :
    ∃ tree, PartWord read false [] tree ∧
      trace { bodyformat := format } (deliverAll { bodyformat := format } read fuel chunks) <+:
        messageWord tree ∧
      trace { bodyformat := format } (parse { bodyformat := format } read fuel chunks) <+:
        messageWord tree ∧
      ((parse { bodyformat := format } read fuel chunks).status = .returned →
        trace { bodyformat := format } (parse { bodyformat := format } read fuel chunks) =
          messageWord tree) := by
  rw [trace_eq, trace_eq]
  obtain ⟨tree, htree, hevents, hreturned⟩ :=
    events_deliverEOF (delivering_deliverAll { bodyformat := format } read fuel chunks) fuel
  exact ⟨tree, htree, (prefix_deliverEOF _ fuel).trans hevents, hevents, hreturned⟩

end CommCentral.JsMime.MimeParser
