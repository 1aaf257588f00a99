import Selectors.Warnings

/-!
# Repeats — which calls report a warning

A warning is reported unless it was before, and calls that forget all warnings may come in between.
What was reported is remembered as one text, in which a bracket and a space stand between the
component and the message. A component may hold such a mark itself, and a message anyway. The text
then has several marks, and each of them divides it into another warning. Of two warnings with one
text only the first is reported, though they name different components.

What is remembered is followed along the calls, each of which adds one text or forgets all. Which
warnings have one text is a matter of the mark alone: it does not overlap with itself, so that of
two marks in a text one is the other or stands behind it.

* **`Warning.text_eq_iff`** — the warnings that have one text.
* **`Warnings.mem_run_iff`** — what is remembered after some calls.
* **`Warnings.reports_iff`** — when a warning is reported.
-/

namespace Selectors

/-! ## Warnings with one text -/

/-- A warning: the component that it comes from, and what it says. -/
@[ext]
structure Warning where
  component : String
  message : String
deriving DecidableEq, Repr

namespace Warning

/-- The text by which a warning is remembered. -/
def text (warning : Warning) : String :=
  Warnings.key warning.component warning.message

/-- In one text of both warnings the component of the first one ends at an earlier mark, and that
    of the second one goes on in the message of the first. -/
def EndsBefore (first second : Warning) : Prop :=
  ∃ between, second.component = first.component ++ "] " ++ between ∧
    first.message = between ++ "] " ++ second.message

/-- One text is divided into the two warnings at different marks. -/
def MistakenFor (first second : Warning) : Prop :=
  first.EndsBefore second ∨ second.EndsBefore first

/-- There is no mark in the component. -/
def IsPlain (warning : Warning) : Prop :=
  ¬ ∃ front back, warning.component = front ++ "] " ++ back

variable {first second : Warning}

private theorem toList_text (warning : Warning) :
    warning.text.toList =
      '[' :: (warning.component.toList ++ ']' :: ' ' :: warning.message.toList) := by
  simp [text, Warnings.key]

/-- Two warnings share their text if one component ends inside the other. -/
theorem EndsBefore.text_eq (h : first.EndsBefore second) : first.text = second.text := by
  obtain ⟨between, hcomponent, hmessage⟩ := h
  simp only [text, Warnings.key, hcomponent, hmessage, String.append_assoc]

/-- If the component of one warning begins that of another one with the same text, the marks behind
    them are the same, or the second one stands behind the first. -/
theorem eq_or_endsBefore {rest : List Char}
    (hcomponent : second.component.toList = first.component.toList ++ rest)
    (hrest : ']' :: ' ' :: first.message.toList = rest ++ ']' :: ' ' :: second.message.toList) :
    first = second ∨ first.EndsBefore second := by
  match rest with
  | [] =>
    rw [List.append_nil] at hcomponent
    obtain ⟨-, hmessage⟩ := List.cons.inj (List.cons.inj hrest).2
    exact Or.inl (Warning.ext (String.toList_inj.1 hcomponent.symm) (String.toList_inj.1 hmessage))
  | [_] =>
    -- the second mark would begin within the first one
    obtain ⟨hspace, -⟩ := List.cons.inj (List.cons.inj hrest).2
    exact absurd hspace (by decide)
  | _ :: _ :: between =>
    obtain ⟨rfl, htail⟩ := List.cons.inj hrest
    obtain ⟨rfl, hmessage⟩ := List.cons.inj htail
    refine Or.inr ⟨String.ofList between, String.toList_inj.1 ?_, String.toList_inj.1 ?_⟩
    · simp [hcomponent]
    · simp [hmessage]

/-- Two warnings have one text if they are the same or if one is mistaken for the other. -/
theorem text_eq_iff :
    first.text = second.text ↔ first = second ∨ first.MistakenFor second := by
  constructor
  · intro h
    rw [← String.toList_inj, toList_text, toList_text, List.cons_inj_right,
      List.append_eq_append_iff] at h
    obtain ⟨rest, hcomponent, hrest⟩ | ⟨rest, hcomponent, hrest⟩ := h
    · exact (eq_or_endsBefore hcomponent hrest).imp_right Or.inl
    · exact (eq_or_endsBefore hcomponent hrest).imp Eq.symm Or.inr
  · rintro (rfl | h | h)
    · rfl
    · exact h.text_eq
    · exact h.text_eq.symm

/-- A component without the bracket is plain. -/
theorem isPlain_of_not_mem {warning : Warning} (h : ']' ∉ warning.component.toList) :
    warning.IsPlain := by
  rintro ⟨front, back, hcomponent⟩
  rw [hcomponent] at h
  simp at h

/-- Of two plain warnings neither is mistaken for the other. -/
theorem IsPlain.not_mistakenFor (hfirst : first.IsPlain) (hsecond : second.IsPlain) :
    ¬ first.MistakenFor second := by
  rintro (⟨between, hcomponent, -⟩ | ⟨between, hcomponent, -⟩)
  · exact hsecond ⟨_, _, hcomponent⟩
  · exact hfirst ⟨_, _, hcomponent⟩

end Warning

/-! ## What is remembered -/

/-- A call: a warning is given, or all of them are forgotten. -/
inductive WarningCall where
  | give (warning : Warning)
  | forget
deriving DecidableEq, Repr

namespace Warnings

/-- The warnings after a call. -/
def step (warnings : Warnings) : WarningCall → Warnings
  | .give warning => (warnings.record warning.component warning.message).2
  | .forget => empty

/-- The warnings after some calls, one after the other. -/
def run (warnings : Warnings) (calls : List WarningCall) : Warnings :=
  calls.foldl step warnings

/-- Whether a warning is reported that is given after some calls, if nothing was reported before
    them. -/
def reports (calls : List WarningCall) (warning : Warning) : Bool :=
  ((empty.run calls).record warning.component warning.message).1

/-- A warning was given by one of some calls, and nothing was forgotten by a later one. -/
def GivenIn (calls : List WarningCall) (warning : Warning) : Prop :=
  ∃ before behind, calls = before ++ .give warning :: behind ∧ .forget ∉ behind

variable {calls : List WarningCall} {call : WarningCall} {warning : Warning} {text : String}

private theorem not_givenIn_nil : ¬ GivenIn [] warning := by
  rintro ⟨before, behind, heq, -⟩
  exact absurd heq.symm (by simp)

/-- A warning has been given by the first call, if nothing is forgotten later, or by a later one.
    -/
theorem givenIn_cons_iff :
    GivenIn (call :: calls) warning ↔
      call = .give warning ∧ .forget ∉ calls ∨ GivenIn calls warning := by
  constructor
  · rintro ⟨before, behind, heq, hforget⟩
    obtain ⟨rfl, hcons⟩ | ⟨rest, rfl, hcalls⟩ := List.cons_eq_append_iff.1 heq
    · obtain ⟨rfl, rfl⟩ := List.cons.inj hcons
      exact Or.inl ⟨rfl, hforget⟩
    · exact Or.inr ⟨rest, behind, hcalls, hforget⟩
  · rintro (⟨rfl, hforget⟩ | ⟨before, behind, rfl, hforget⟩)
    · exact ⟨[], calls, rfl, hforget⟩
    · exact ⟨call :: before, behind, rfl, hforget⟩

/-- A call adds the text of its warning, or leaves nothing. -/
theorem mem_step_iff {warnings : Warnings} :
    text ∈ (warnings.step call).reported ↔
      text ∈ warnings.reported ∧ call ≠ .forget ∨
        ∃ warning, call = .give warning ∧ warning.text = text := by
  cases call with
  | give warning =>
    rw [← Std.HashSet.contains_iff_mem, step, contains_record, Bool.or_eq_true, beq_iff_eq,
      Std.HashSet.contains_iff_mem, or_comm]
    simp [Warning.text]
  | forget => simp [step, empty]

/-- What is remembered after some calls are the texts of the warnings that were given since all were
    forgotten for the last time. If they never were, so is what was remembered before. -/
theorem mem_run_iff (warnings : Warnings) :
    text ∈ (warnings.run calls).reported ↔
      text ∈ warnings.reported ∧ .forget ∉ calls ∨
        ∃ warning, GivenIn calls warning ∧ warning.text = text := by
  induction calls generalizing warnings with
  | nil => simp [run, not_givenIn_nil]
  | cons call calls ih =>
    have hgiven : (∃ warning, GivenIn (call :: calls) warning ∧ warning.text = text) ↔
        (∃ warning, call = .give warning ∧ warning.text = text) ∧ .forget ∉ calls ∨
          ∃ warning, GivenIn calls warning ∧ warning.text = text := by
      simp only [givenIn_cons_iff, or_and_right, exists_or, ← exists_and_right, and_right_comm]
    rw [run, List.foldl_cons, ← run, ih, mem_step_iff, hgiven, List.mem_cons, not_or,
      or_and_right, and_assoc, or_assoc, ne_comm, ne_eq]

/-! ## What is reported -/

/-- A warning is reported unless one with its text was given. -/
theorem reports_iff_text :
    reports calls warning = true ↔
      ¬ ∃ earlier, GivenIn calls earlier ∧ earlier.text = warning.text := by
  have hrun : warning.text ∈ (empty.run calls).reported ↔ _ := mem_run_iff empty
  rw [reports, record, Bool.not_eq_true', ← Bool.not_eq_true, Std.HashSet.contains_iff_mem]
  refine not_congr (hrun.trans (or_iff_right ?_))
  rintro ⟨hmem, -⟩
  exact absurd hmem Std.HashSet.not_mem_empty

/-- A warning is reported exactly if, since all were forgotten for the last time, neither it was
    given nor one that is mistaken for it. Among warnings from components without a mark none is
    mistaken for another, so that only the pair of component and message counts. -/
theorem reports_iff (calls : List WarningCall) (warning : Warning) :
    (reports calls warning = true ↔
      ¬ GivenIn calls warning ∧
        ¬ ∃ earlier, GivenIn calls earlier ∧ earlier.MistakenFor warning) ∧
      (warning.IsPlain → (∀ earlier, GivenIn calls earlier → earlier.IsPlain) →
        (reports calls warning = true ↔ ¬ GivenIn calls warning)) := by
  have hreports : reports calls warning = true ↔
      ¬ GivenIn calls warning ∧
        ¬ ∃ earlier, GivenIn calls earlier ∧ earlier.MistakenFor warning := by
    rw [reports_iff_text, ← not_or]
    simp only [Warning.text_eq_iff, and_or_left, exists_or, exists_eq_right]
  refine ⟨hreports, fun hplain hearlier => hreports.trans (and_iff_left ?_)⟩
  rintro ⟨earlier, hgiven, hmistaken⟩
  exact (hearlier earlier hgiven).not_mistakenFor hplain hmistaken

/-- The warning on a dynamic state. -/
def ofState (state : DynamicState) : Warning :=
  ⟨selectorComponent, dynamicMessage state⟩

/-- All warnings are forgotten after one and before another. -/
def forgottenHover : List WarningCall :=
  [.give (ofState .hover), .forget, .give (ofState .focus)]

private theorem givenIn_forgottenHover_iff :
    GivenIn forgottenHover warning ↔ warning = ofState .focus := by
  simp [forgottenHover, givenIn_cons_iff, not_givenIn_nil, eq_comm]

private theorem isPlain_ofState (state : DynamicState) : (ofState state).IsPlain :=
  Warning.isPlain_of_not_mem (show ']' ∉ selectorComponent.toList by decide)

/-- What has been forgotten is reported anew, and what came after is not. -/
theorem reports_iff_forgottenHover :
    (ofState .hover).IsPlain ∧
      (∀ earlier, GivenIn forgottenHover earlier → earlier.IsPlain) ∧
        reports forgottenHover (ofState .hover) = true ∧
          ¬ reports forgottenHover (ofState .focus) = true := by
  have hearlier : ∀ earlier, GivenIn forgottenHover earlier → earlier.IsPlain := by
    intro earlier hgiven
    rw [givenIn_forgottenHover_iff.1 hgiven]
    exact isPlain_ofState .focus
  refine ⟨isPlain_ofState .hover, hearlier, ?hover, ?focus⟩
  case hover =>
    rw [(reports_iff forgottenHover (ofState .hover)).2 (isPlain_ofState .hover) hearlier,
      givenIn_forgottenHover_iff]
    decide
  case focus =>
    rw [(reports_iff forgottenHover (ofState .focus)).2 (isPlain_ofState .focus) hearlier,
      givenIn_forgottenHover_iff]
    exact not_not_intro rfl

/-- The pair does not decide it always: a bracket in a component is taken for the one behind it. -/
theorem not_reports_iff_not_givenIn :
    ¬ ∀ (calls : List WarningCall) (warning : Warning),
      reports calls warning = true ↔ ¬ GivenIn calls warning := by
  intro hall
  have hnew : ¬ GivenIn [.give ⟨"a", "b] c"⟩] ⟨"a] b", "c"⟩ := by
    simp [givenIn_cons_iff, not_givenIn_nil]
  refine reports_iff_text.1 ((hall _ _).2 hnew) ⟨⟨"a", "b] c"⟩, ?_, rfl⟩
  exact givenIn_cons_iff.2 (Or.inl ⟨rfl, List.not_mem_nil⟩)

end Warnings

end Selectors
