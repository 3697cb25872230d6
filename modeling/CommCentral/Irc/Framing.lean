import CommCentral.Irc.Message

/-!
# The framing of messages

A message goes over the socket as the command, a space before each parameter,
and a space and a colon before a last parameter that would not be read as one
without the colon (`frame`).  The expression of the parser takes the frame part
by part without backtracking: no field begins where the command does, each
parameter ends at the next space, and no parameter begins with the colon.
-/

namespace CommCentral.Irc

open List JsString Regex Escapes Function

structure IsMiddle (p : JsString) : Prop where
  ne_nil : p ≠ []
  space_notMem : space ∉ p
  head_ne : p.head? ≠ some colon

instance (p : JsString) : Decidable (IsMiddle p) :=
  decidable_of_iff (p ≠ [] ∧ space ∉ p ∧ p.head? ≠ some colon)
    ⟨fun h => ⟨h.1, h.2.1, h.2.2⟩, fun h => ⟨h.ne_nil, h.space_notMem, h.head_ne⟩⟩

structure IsCommand (aCommand : JsString) : Prop where
  ne_nil : aCommand ≠ []
  chars : ∀ c ∈ aCommand, isCommandChar c = true

def spaced (ps : List JsString) : JsString := ps.flatMap fun p => space :: p

/-- The last parameter, when it has a colon. -/
def trailer : Option JsString → JsString
  | none => []
  | some t => space :: colon :: t

/-- The line of a message. -/
def frame (aCommand : JsString) (middles : List JsString) (trailing : Option JsString) :
    JsString := aCommand ++ (spaced middles ++ trailer trailing)

variable {aCommand p l : JsString} {aParams ps middles : List JsString}
  {trailing : Option JsString} {k : Regex.Captures UInt16}

/-! ## Building the line -/

theorem spaced_eq_intercalate (p : JsString) (ps : List JsString) :
    spaced (p :: ps) = space :: [space].intercalate (p :: ps) := by
  induction ps generalizing p with
  | nil =>
    rw [intercalate_singleton]
    exact append_nil _
  | cons q ps ih =>
    rw [spaced, flatMap_cons, ← spaced, ih q, intercalate_cons_cons,
      append_assoc]
    rfl

theorem buildMessage_concat (hcmd : IsCommand aCommand) (hps : ∀ p ∈ ps, IsMiddle p)
    (t : JsString) :
    buildMessage aCommand (ps ++ [t]) =
      some (aCommand ++ spaced (ps ++ [quoteTrailing t])) := by
  have hall : aCommand.all isCommandChar = true := all_eq_true.mpr hcmd.chars
  have hany : (ps.any fun p => decide (space ∈ p)) = false := by
    rw [any_eq_false]
    intro p hp hmem
    exact (hps p hp).space_notMem (of_decide_eq_true hmem)
  have hspaced : spaced (ps ++ [quoteTrailing t]) =
      space :: [space].intercalate (ps ++ [quoteTrailing t]) := by
    cases ps with
    | nil => exact spaced_eq_intercalate _ _
    | cons p ps => exact spaced_eq_intercalate _ _
  rw [buildMessage, if_neg hcmd.ne_nil, if_neg (not_not_intro hall), getLast?_concat,
    dropLast_concat, hspaced]
  dsimp only
  rw [hany, append_assoc]
  rfl

/-- The parameters are the ones before the colon, and the one behind it. -/
theorem buildMessage_eq (hcmd : IsCommand aCommand) (hparams : ∀ p ∈ aParams.dropLast, IsMiddle p) :
    ∃ middles trailing, aParams = middles ++ trailing.toList ∧ (∀ p ∈ middles, IsMiddle p) ∧
      buildMessage aCommand aParams = some (frame aCommand middles trailing) := by
  rcases eq_nil_or_concat aParams with rfl | ⟨ps, t, rfl⟩
  · have hall : aCommand.all isCommandChar = true := all_eq_true.mpr hcmd.chars
    have hnone : ∀ p ∈ ([] : List JsString), IsMiddle p := by
      intro p hp
      cases hp
    refine ⟨[], none, rfl, hnone, ?_⟩
    rw [buildMessage, if_neg hcmd.ne_nil, if_neg (not_not_intro hall)]
    exact congrArg some (append_nil _).symm
  · rw [concat_eq_append] at hparams ⊢
    rw [dropLast_concat] at hparams
    rw [buildMessage_concat hcmd hparams]
    rcases em (t = [] ∨ space ∈ t ∨ t.head? = some colon) with hcolon | hplain
    · refine ⟨ps, some t, rfl, hparams, ?_⟩
      rw [quoteTrailing, if_pos hcolon, spaced, flatMap_append, frame, spaced,
        flatMap_singleton]
      rfl
    · have ht : IsMiddle t := by
        rw [not_or, not_or] at hplain
        exact ⟨hplain.1, hplain.2.1, hplain.2.2⟩
      refine ⟨ps ++ [t], none, (append_nil _).symm, ?_, ?_⟩
      · intro p hp
        rw [mem_append, mem_singleton] at hp
        rcases hp with hp | rfl
        · exact hparams p hp
        · exact ht
      · rw [quoteTrailing, if_neg hplain, frame, trailer, append_nil]

/-! ## Parsing the line -/

variable {c : UInt16}

theorem isCommandChar_iff_ne (h : isCommandChar c = true) : c ≠ space ∧ c ≠ colon ∧ c ≠ 0x40 := by
  refine ⟨?_, ?_, ?_⟩
  · rintro rfl
    exact absurd h (by decide)
  · rintro rfl
    exact absurd h (by decide)
  · rintro rfl
    exact absurd h (by decide)

theorem char_self : Takes (char c) (c :: l, k) (l, k) :=
  takes_cls (beq_self_eq_true c)

variable {d : UInt16}

theorem char_of_ne (h : d ≠ c) : (char c).run (d :: l, k) = [] :=
  cls_of_not (beq_eq_false_iff_ne.mpr h)

/-- There is no field where the line begins with another character. -/
theorem fieldRegex_takes (h : d ≠ c) (n : ℕ) :
    Takes (fieldRegex c n) (d :: l, k) (d :: l, k) :=
  takes_opt_nil (seq_eq_nil (char_of_ne h))

theorem notSpace_of_mem (h : space ∉ p) : ∀ c ∈ p, notSpace c = true := by
  intro c hc
  exact bne_iff_ne.mpr fun he => h (he ▸ hc)

def StartsSpace (l : JsString) : Prop := ∀ c ∈ l.head?, c = space

theorem StartsSpace.notSpace (h : StartsSpace l) : ∀ c ∈ l.head?, notSpace c = false := by
  intro c hc
  rw [h c hc]
  rfl

theorem startsSpace_spaced (ps : List JsString) (h : StartsSpace l) :
    StartsSpace (spaced ps ++ l) := by
  cases ps with
  | nil => exact h
  | cons p ps =>
    intro c hc
    cases hc
    rfl

theorem startsSpace_trailer (trailing : Option JsString) : StartsSpace (trailer trailing) := by
  cases trailing with
  | none =>
    intro c hc
    cases hc
  | some t =>
    intro c hc
    cases hc
    rfl

/-- ` +[^: ][^ ]*`. -/
def paramRegex : Regex UInt16 :=
  (Regex.plus (char space)).seq ((Regex.cls startsParam).seq (.star (.cls notSpace)))

theorem paramRegex_takes (hp : IsMiddle p) (hl : StartsSpace l) :
    Takes paramRegex (space :: p ++ l, k) (l, k) := by
  cases p with
  | nil => exact absurd rfl hp.ne_nil
  | cons c p =>
    have hspace : c ≠ space := fun he => hp.space_notMem (he ▸ mem_cons_self)
    have hcolon : c ≠ colon := fun he => hp.head_ne (congrArg some he)
    have hstarts : startsParam c = true := by
      rw [startsParam, bne_iff_ne.mpr hcolon, bne_iff_ne.mpr hspace]
      rfl
    have hspaces : Takes (plus (char space)) ([space] ++ (c :: p ++ l), k)
        (c :: p ++ l, k) := by
      refine takes_plus_cls (cons_ne_nil _ _) ?_ ?_
      · intro d hd
        rw [mem_singleton.mp hd]
        exact beq_self_eq_true _
      · intro d hd
        cases hd
        exact beq_eq_false_iff_ne.mpr hspace
    have hrest : Takes (star (.cls notSpace)) (p ++ l, k) (l, k) :=
      takes_star_cls (notSpace_of_mem fun h => hp.space_notMem (mem_cons_of_mem _ h))
        hl.notSpace
    exact hspaces.seq ((takes_cls hstarts).seq hrest)

/-- No parameter begins at the end of the line or at the colon. -/
theorem paramRegex_trailer : paramRegex.run (trailer trailing, k) = [] := by
  cases trailing with
  | none => rfl
  | some t =>
    have hstar : (star (char space)).run (colon :: t, k) = [(colon :: t, k)] :=
      star_of_eq_nil (char_of_ne (by decide))
    have hplus : (plus (char space)).run (space :: colon :: t, k) = [(colon :: t, k)] := by
      rw [plus, run, char, run, if_pos (beq_self_eq_true space), ← char]
      rfl
    rfl

theorem star_paramRegex_takes (hmiddles : ∀ p ∈ middles, IsMiddle p) :
    Takes (.star paramRegex) (spaced middles ++ trailer trailing, k)
      (trailer trailing, k) := by
  induction middles with
  | nil => exact takes_star_nil paramRegex_trailer
  | cons p ps ih =>
    have hp := hmiddles p mem_cons_self
    have hstep : Takes paramRegex (space :: p ++ (spaced ps ++ trailer trailing), k)
        (spaced ps ++ trailer trailing, k) :=
      paramRegex_takes hp (startsSpace_spaced ps (startsSpace_trailer trailing))
    have hlt : (spaced ps ++ trailer trailing).length <
        (space :: p ++ (spaced ps ++ trailer trailing)).length := by
      simp only [cons_append, length_cons, length_append]
      omega
    rw [spaced, flatMap_cons, append_assoc]
    exact hstep.star hlt (ih fun p hp => hmiddles p (mem_cons_of_mem _ hp))

theorem paramsRegex_takes (trailing : Option JsString) (hmiddles : ∀ p ∈ middles, IsMiddle p)
    (hk : k 4 = none) :
    ∃ k', Takes paramsRegex (spaced middles ++ trailer trailing, k) (trailer trailing, k') ∧
      truthy (k' 4) = truthy (some (spaced middles)) ∧ ∀ n, n ≠ 4 → k' n = k n := by
  have hstar : Takes (.star paramRegex) (spaced middles ++ trailer trailing, k)
      (trailer trailing, k) := star_paramRegex_takes hmiddles
  cases middles with
  | nil =>
    refine ⟨k, takes_opt_of_not ?_, by rw [hk]; rfl, fun n hn => rfl⟩
    intro y hy
    rw [run, ← paramRegex, spaced, flatMap_nil, nil_append,
      star_of_eq_nil paramRegex_trailer, map_singleton, mem_singleton] at hy
    rw [hy]
    exact Nat.lt_irrefl _
  | cons p ps =>
    refine ⟨_, (hstar.group 4).opt ?_, ?_, fun n hn => update_of_ne hn _ _⟩
    · rw [length_append]
      exact Nat.lt_add_of_pos_left (Nat.succ_pos _)
    · rw [update_self]

/-- What is left is the end of the line, or the last parameter behind its colon. -/
theorem trailingRegex_takes (trailing : Option JsString) (hk : k 5 = none) :
    ∃ k', Takes trailingRegex (trailer trailing, k) ([], k') ∧ k' 5 = trailing ∧
      ∀ n, n ≠ 5 → k' n = k n := by
  cases trailing with
  | none =>
    refine ⟨k, ?_, hk, fun n hn => rfl⟩
    exact (takes_star_nil cls_nil).seq
      (takes_opt_nil (seq_eq_nil cls_nil))
  | some t =>
    have hspaces : Takes (.star (char space)) ([space] ++ colon :: t, k) (colon :: t, k) := by
      refine takes_star_cls ?_ ?_
      · intro d hd
        rw [mem_singleton.mp hd]
        exact beq_self_eq_true _
      · intro d hd
        cases hd
        rfl
    have hany : Takes (.star (.cls fun _ => true)) (t ++ [], k) ([], k) := by
      refine takes_star_cls (fun d hd => rfl) ?_
      intro d hd
      cases hd
    have hgroup := hany.group 5
    rw [append_nil] at hgroup
    exact ⟨_, hspaces.seq ((char_self.seq hgroup).opt (Nat.succ_pos _)),
      update_self .., fun n hn => update_of_ne hn _ _⟩

theorem exec_frame (hcmd : IsCommand aCommand) (hmiddles : ∀ p ∈ middles, IsMiddle p)
    (trailing : Option JsString) :
    ∃ k, messageRegex.exec (frame aCommand middles trailing) = some k ∧ k 1 = none ∧ k 2 = none ∧
      k 3 = some aCommand ∧ truthy (k 4) = truthy (some (spaced middles)) ∧ k 5 = trailing := by
  have hrest : StartsSpace (spaced middles ++ trailer trailing) :=
    startsSpace_spaced middles (startsSpace_trailer trailing)
  have hchars : ∀ c ∈ aCommand, notSpace c = true :=
    fun c hc => bne_iff_ne.mpr (isCommandChar_iff_ne (hcmd.chars c hc)).1
  have hcommand := (takes_plus_cls (k := fun _ => none) hcmd.ne_nil hchars
    hrest.notSpace).group 3
  obtain ⟨k₁, hparams, hk₁, hsame₁⟩ := paramsRegex_takes
    (k := update (fun _ => none) 3 (some aCommand)) trailing hmiddles rfl
  obtain ⟨k₂, htrailing, hk₂, hsame₂⟩ := trailingRegex_takes trailing (hsame₁ 5 (by decide))
  cases aCommand with
  | nil => exact absurd rfl hcmd.ne_nil
  | cons c cmd =>
    obtain ⟨-, hcolon, hat⟩ := isCommandChar_iff_ne (hcmd.chars c mem_cons_self)
    refine ⟨k₂, ?_, ?_, ?_, ?_, ?_, hk₂⟩
    · exact ((fieldRegex_takes hat 1).seq ((fieldRegex_takes hcolon 2).seq
        (hcommand.seq (hparams.seq htrailing)))).exec
    · rw [hsame₂ 1 (by decide), hsame₁ 1 (by decide)]
      rfl
    · rw [hsame₂ 2 (by decide), hsame₁ 2 (by decide)]
      rfl
    · rw [hsame₂ 3 (by decide), hsame₁ 3 (by decide)]
      rfl
    · rw [hsame₂ 4 (by decide), hk₁]

theorem split_spaced (hp : space ∉ p) (hps : ∀ q ∈ ps, IsMiddle q) :
    split space (p ++ spaced ps) = p :: ps := by
  have hne : ∀ c ∈ p, c ≠ space := fun c hc he => hp (he ▸ hc)
  induction ps generalizing p with
  | nil =>
    rw [spaced, flatMap_nil, append_nil, split_of_not_mem hne]
  | cons q ps ih =>
    have hq : space ∉ q := (hps q mem_cons_self).space_notMem
    rw [spaced, flatMap_cons, cons_append, split_append hne, ← spaced,
      ih hq (fun r hr => hps r (mem_cons_of_mem _ hr)) fun c hc he => hq (he ▸ hc)]

theorem params_spaced (hmiddles : ∀ p ∈ middles, IsMiddle p) :
    ((truthy (some (spaced middles))).map fun ps => (split space ps).drop 1).getD [] = middles := by
  cases middles with
  | nil => rfl
  | cons p ps =>
    have hsplit := split_spaced (p := []) (not_mem_nil) hmiddles
    rw [nil_append] at hsplit
    show (split space (spaced (p :: ps))).drop 1 = p :: ps
    rw [hsplit]
    rfl

theorem ircMessage_frame (hcmd : IsCommand aCommand) (hmiddles : ∀ p ∈ middles, IsMiddle p)
    (trailing : Option JsString) (aOrigin : JsString) :
    ∃ message, ircMessage (frame aCommand middles trailing) aOrigin = some message ∧
      message.command = aCommand ∧ message.params = middles ++ trailing.toList ∧
      message.tags = [] ∧ message.origin = (splitPrefix aOrigin)[0]? ∧
      message.user = (splitPrefix aOrigin)[1]? ∧ message.host = (splitPrefix aOrigin)[2]? := by
  obtain ⟨k, hexec, htags, hpre, hcommand, hparams, htrailing⟩ :=
    exec_frame hcmd hmiddles trailing
  have horigin : (truthy (k 2)).getD aOrigin = aOrigin := by
    rw [hpre]
    rfl
  rw [ircMessage, hexec]
  refine ⟨_, rfl, ?_, ?_, ?_, ?_, ?_, ?_⟩
  · show (k 3).getD [] = aCommand
    rw [hcommand]
    rfl
  · show ((truthy (k 4)).map fun ps => (split space ps).drop 1).getD [] ++ (k 5).toList = _
    rw [hparams, params_spaced hmiddles, htrailing]
  · show ((truthy (k 1)).map _).getD [] = []
    rw [htags]
    rfl
  · exact congrArg (fun pre => (splitPrefix pre)[0]?) horigin
  · exact congrArg (fun pre => (splitPrefix pre)[1]?) horigin
  · exact congrArg (fun pre => (splitPrefix pre)[2]?) horigin

theorem splitPrefix_of_ne {pre : JsString} (h : ∀ c ∈ pre, c ≠ 0x21 ∧ c ≠ 0x40) :
    splitPrefix pre = [pre] := by
  refine splitOnP_eq_singleton ?_
  intro c hc
  rw [beq_eq_false_iff_ne.mpr (h c hc).1, beq_eq_false_iff_ne.mpr (h c hc).2]
  rfl

/-! ## The quotes -/

theorem lowDequote_of_lowQuote (h : lowQuote c = some d) : lowDequote d = some c := by
  rw [lowQuote] at h
  split at h
  next hc =>
    cases h
    rw [hc]
    rfl
  next =>
    split at h
    next hc =>
      cases h
      rw [hc]
      rfl
    next =>
      split at h
      next hc =>
        cases h
        rw [hc]
        rfl
      next =>
        split at h
        next hc =>
          cases h
          rw [hc]
          rfl
        next => cases h

theorem unescape_lowQuote (s : JsString) :
    unescape lowQuoteChar lowDequote (escape lowQuoteChar lowQuote s) = s :=
  unescape_escape (by decide) (fun _ _ => lowDequote_of_lowQuote) s

/-- A character that ends a line, or the null character. -/
def breaksLine (c : UInt16) : Prop := c = 0 ∨ c = 0x0a ∨ c = 0x0d

instance (c : UInt16) : Decidable (breaksLine c) :=
  inferInstanceAs (Decidable (c = 0 ∨ c = 0x0a ∨ c = 0x0d))

theorem lowQuote_of_breaksLine (h : breaksLine c) : lowQuote c ≠ none := by
  rcases h with rfl | rfl | rfl
  · decide
  · decide
  · decide

theorem not_breaksLine_of_lowQuote (h : lowQuote c = some d) : ¬ breaksLine d := by
  have hd := lowDequote_of_lowQuote h
  rintro (rfl | rfl | rfl)
  · have hc : c = 0 := (Option.some.inj hd).symm
    rw [hc] at h
    exact absurd h (by decide)
  · cases hd
  · cases hd

theorem escape_lowQuote_not_breaksLine (s : JsString) :
    ∀ c ∈ escape lowQuoteChar lowQuote s, ¬ breaksLine c := by
  intro c hc hbreaks
  rcases mem_escape hc with rfl | ⟨b, hb⟩ | hnone
  · exact absurd hbreaks (by decide)
  · exact not_breaksLine_of_lowQuote hb hbreaks
  · exact lowQuote_of_breaksLine hbreaks hnone

/-! ## The round trip -/

/-- A message that is sent is one line, and the line is read as the message. -/
theorem onDataReceived_sendMessage (hcmd : IsCommand aCommand)
    (hparams : ∀ p ∈ aParams.dropLast, IsMiddle p) (currentServerName : JsString) :
    ∃ line message, sendMessage aCommand aParams = some (line ++ js "\r\n") ∧
      (∀ c ∈ line, ¬ breaksLine c) ∧
      onDataReceived line currentServerName = some message ∧
      message.command = aCommand ∧ message.params = aParams ∧ message.tags = [] ∧
      message.origin = (splitPrefix currentServerName)[0]? ∧
      message.user = (splitPrefix currentServerName)[1]? ∧
      message.host = (splitPrefix currentServerName)[2]? ∧
      ((∀ c ∈ currentServerName, c ≠ 0x21 ∧ c ≠ 0x40) →
        message.origin = some currentServerName ∧ message.user = none ∧ message.host = none) := by
  obtain ⟨middles, trailing, rfl, hmiddles, hbuild⟩ := buildMessage_eq hcmd hparams
  obtain ⟨message, hmessage, hcommand, hps, htags, horigin, huser, hhost⟩ :=
    ircMessage_frame hcmd hmiddles trailing currentServerName
  refine ⟨escape lowQuoteChar lowQuote (frame aCommand middles trailing), message, ?_,
    escape_lowQuote_not_breaksLine _, ?_, hcommand, hps, htags, horigin, huser, hhost, ?_⟩
  · rw [sendMessage, hbuild]
    rfl
  · rw [onDataReceived, unescape_lowQuote, hmessage]
  · intro hserver
    rw [horigin, huser, hhost, splitPrefix_of_ne hserver]
    exact ⟨rfl, rfl, rfl⟩

/-- A topic with a space, a line feed and the quote character, behind a name with a carriage
return. -/
theorem onDataReceived_topic :
    ∃ line message, sendMessage (js "TOPIC") [js "#a\r", 0x10 :: js " b\n"] =
        some (line ++ js "\r\n") ∧
      (∀ c ∈ line, ¬ breaksLine c) ∧
      onDataReceived line (js "irc.a") = some message ∧
      message.command = js "TOPIC" ∧ message.params = [js "#a\r", 0x10 :: js " b\n"] ∧
      message.tags = [] ∧ message.origin = (splitPrefix (js "irc.a"))[0]? ∧
      message.user = (splitPrefix (js "irc.a"))[1]? ∧
      message.host = (splitPrefix (js "irc.a"))[2]? ∧
      ((∀ c ∈ js "irc.a", c ≠ 0x21 ∧ c ≠ 0x40) →
        message.origin = some (js "irc.a") ∧ message.user = none ∧ message.host = none) :=
  onDataReceived_sendMessage ⟨by decide, by decide⟩ (by decide) (js "irc.a")

end CommCentral.Irc
