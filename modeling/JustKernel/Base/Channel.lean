import JustKernel.Base.Runs

/-! A channel that one writer at a time takes for a message. The writer sends its message
piece by piece and gives the channel back when nothing is left of it, so what has been sent
is always some whole messages, in the order in which the channel was taken, and a part of
the next one. -/

namespace JustKernel.Channels

open Runs

/-- A channel between writers `W`. `taken` are the messages for which it has been taken, and
the present writer comes with what it has yet to send. -/
structure Channel (W B : Type*) where
  sent : List B
  taken : List (List B)
  writer : Option (W × List B)

variable {W B : Type*} {c c' : Channel W B}

/-- A channel that nobody has used. -/
def Channel.fresh : Channel W B := ⟨[], [], none⟩

inductive Step : Channel W B → Channel W B → Prop
  | take {sent : List B} {taken : List (List B)} (w : W) (message : List B) :
      Step ⟨sent, taken, none⟩ ⟨sent, taken ++ [message], some (w, message)⟩
  | send {sent : List B} {taken : List (List B)} {w : W} {rest : List B} (b : B) :
      Step ⟨sent, taken, some (w, b :: rest)⟩ ⟨sent ++ [b], taken, some (w, rest)⟩
  | giveBack {sent : List B} {taken : List (List B)} {w : W} :
      Step ⟨sent, taken, some (w, [])⟩ ⟨sent, taken, none⟩

/-- Whole messages, and the part of the present writer's that is not left. -/
def Channel.Whole (c : Channel W B) : Prop :=
  match c.writer with
  | none => c.sent = c.taken.flatten
  | some (_, rest) => ∃ before part, c.taken = before ++ [part ++ rest] ∧ c.sent = before.flatten ++ part

theorem Step.whole (h : Step c c') (hc : c.Whole) : c'.Whole := by
  cases h with
  | take w message => exact ⟨_, [], rfl, (hc : _ = _).trans (List.append_nil _).symm⟩
  | @send sent taken w rest b =>
    obtain ⟨before, part, htaken, hsent⟩ := hc
    refine ⟨before, part ++ [b], ?_, ?_⟩
    · rw [List.append_assoc, List.singleton_append]
      exact htaken
    · rw [← List.append_assoc]
      exact congrArg (· ++ [b]) hsent
  | giveBack =>
    obtain ⟨before, part, htaken, hsent⟩ := hc
    simp only [List.append_nil] at htaken hsent
    simp [Channel.Whole, htaken, hsent]

/-- What every run leaves on a channel. -/
theorem Reaches.whole (h : Reaches Step Channel.fresh c) : c.Whole :=
  h.invariant Channel.Whole (fun _ _ hc hstep => hstep.whole hc) rfl

end JustKernel.Channels
