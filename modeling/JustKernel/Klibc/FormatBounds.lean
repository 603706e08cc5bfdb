import JustKernel.Klibc.Stdio

/-! Which formats `_vprintf` gets through. The `default` branch of its `switch` looks two bytes
back to see whether a directive has just begun. If that byte is `%` and the character after it
is neither a conversion nor the start of flags or of a width, nothing is consumed and the
`goto` repeats for ever; `%%` and a `%` at the end are of this kind. If the format ends inside
the flags or the width, the NUL itself is taken for a conversion and the loop goes on behind
it. On all other formats the call returns and has not read behind the NUL. -/

namespace JustKernel.Klibc

open Memory (Byte)

/-! ### The formats -/

/-- What a character of the format is read as: text, the first one after `%`, one after a pad
character, or one after `-` or a digit. -/
inductive Mode
  | text
  | percent
  | pad
  | digits
  deriving DecidableEq

/-- What the next character is read as, if the format can go on with this one. -/
def next : Mode → Byte → Option Mode
  | .text, c => some (if c = chr '%' then .percent else .text)
  | .percent, c =>
    if IsConversion c then some .text
    else if IsPad c then some .pad
    else if c = chr '-' ∨ IsWidth c then some .digits
    else none
  | .pad, c => some (if c = chr '-' ∨ IsWidth c then .digits else .text)
  | .digits, c => some (if IsWidth c then .digits else .text)

/-- Each `%` that starts a directive is followed by a conversion, or by flags or a width and
then any character; the format does not end inside a directive. -/
def accepts : Mode → List Byte → Bool
  | m, [] => m = .text
  | m, c :: text =>
    match next m c with
    | some m' => accepts m' text
    | none => false

/-! ### One character -/

section Steps

variable {C : Call} {p : ℕ} {s t : State}

/-- In front of the character at `p`. -/
structure AtText (p : ℕ) (s : State) : Prop where
  label : s.label = .loop
  pos : s.pos = p
  reads : ∀ i ∈ s.reads, i ≤ p

/-- The character at `p` has been read and is at the label. -/
structure Here (C : Call) (label : Byte → Label) (p : ℕ) (s : State) : Prop where
  label : s.label = label (C.format p)
  pos : s.pos = p + 1
  reads : ∀ i ∈ s.reads, i ≤ p

/-- The state of the machine in a mode. -/
def At (C : Call) : Mode → ℕ → State → Prop
  | .text, p, s => AtText p s
  | .percent, p, s => Here C .back p s ∧ C.format (p - 1) = chr '%'
  | .pad, p, s => Here C .minus p s ∧ C.format (p - 1) ≠ chr '%'
  | .digits, p, s => Here C .width p s ∧ C.format (p - 1) ≠ chr '%'

/-- A label at which the next character has just been fetched. -/
theorem here_fetch {label : Byte → Label} (hpos : s.pos = p + 1) (hreads : ∀ i ∈ s.reads, i ≤ p + 1) :
    Here C label (p + 1) (fetch C label s) := by
  refine ⟨?_, ?_, ?_⟩
  · rw [fetch, hpos]
  · rw [fetch, hpos]
  · rw [fetch, hpos]
    exact List.forall_mem_cons.mpr ⟨le_rfl, hreads⟩

theorem atText_putString (q : List Byte) (hpos : s.pos = p) (hreads : ∀ i ∈ s.reads, i ≤ p) :
    AtText p (putString q s) := ⟨rfl, hpos, hreads⟩

theorem atText_putArg (hpos : s.pos = p) (hreads : ∀ i ∈ s.reads, i ≤ p) : AtText p (putArg C s) :=
  ⟨rfl, hpos, hreads⟩

/-- The `switch` on a conversion, or on anything else that does not follow `%`, takes an
argument and is done with the directive. -/
theorem stepBack_text (h : Here C .back p s) (hc : IsConversion (C.format p) ∨ C.format (p - 1) ≠ chr '%') :
    AtText (p + 1) (step C s) := by
  have hreads : ∀ i ∈ s.reads, i ≤ p + 1 := fun i hi => (h.reads i hi).trans (Nat.le_succ p)
  have hback : s.pos - 2 = p - 1 := by rw [h.pos]; omega
  rw [step, h.label]
  dsimp only
  by_cases hconv : IsConversion (C.format p)
  · rcases hconv with hd | hu | hx | hs | hchar
    · rw [stepBack_number (Or.inl hd)]
      exact atText_putString _ h.pos hreads
    · rw [stepBack_number (Or.inr (Or.inl hu))]
      exact atText_putString _ h.pos hreads
    · rw [stepBack_number (Or.inr (Or.inr hx))]
      exact atText_putString _ h.pos hreads
    · rw [hs, stepBack_string]
      exact atText_putString _ h.pos hreads
    · rw [hchar, stepBack_char]
      exact atText_putArg h.pos hreads
  · rw [stepBack_other hconv (by rw [hback]; exact hc.resolve_left hconv), hback]
    exact atText_putArg h.pos (List.forall_mem_cons.mpr ⟨by omega, hreads⟩)

/-- The `switch` right after `%`, on no conversion. -/
theorem stepBack_percent (h : Here C .back p s) (hbefore : C.format (p - 1) = chr '%')
    (hc : ¬IsConversion (C.format p)) :
    (IsPad (C.format p) → Here C .minus (p + 1) (step C s)) ∧
      (¬IsPad (C.format p) → Here C .minus p (step C s)) := by
  have hback : s.pos - 2 = p - 1 := by rw [h.pos]; omega
  have hreads : ∀ i ∈ (p - 1) :: s.reads, i ≤ p := List.forall_mem_cons.mpr ⟨by omega, h.reads⟩
  rw [step, h.label]
  dsimp only
  rw [stepBack_flags hc (by rw [hback]; exact hbefore), hback]
  constructor
  · intro hpad
    rw [if_pos hpad]
    exact here_fetch h.pos fun i hi => (hreads i hi).trans (Nat.le_succ p)
  · intro hpad
    rw [if_neg hpad]
    exact ⟨rfl, h.pos, hreads⟩

theorem stepMinus_minus (h : Here C .minus p s) (hc : C.format p = chr '-') : Here C .width (p + 1) (step C s) := by
  rw [step, h.label]
  dsimp only
  unfold stepMinus
  rw [if_pos hc]
  exact here_fetch h.pos fun i hi => (h.reads i hi).trans (Nat.le_succ p)

theorem stepMinus_other (h : Here C .minus p s) (hc : C.format p ≠ chr '-') : Here C .width p (step C s) := by
  rw [step, h.label]
  dsimp only
  unfold stepMinus
  rw [if_neg hc]
  exact ⟨rfl, h.pos, h.reads⟩

theorem stepWidth_digit (h : Here C .width p s) (hc : IsWidth (C.format p)) : Here C .width (p + 1) (step C s) := by
  rw [step, h.label]
  dsimp only
  unfold stepWidth
  rw [if_pos hc]
  exact here_fetch h.pos fun i hi => (h.reads i hi).trans (Nat.le_succ p)

theorem stepWidth_other (h : Here C .width p s) (hc : ¬IsWidth (C.format p)) : Here C .back p (step C s) := by
  rw [step, h.label]
  dsimp only
  unfold stepWidth
  rw [if_neg hc]
  exact ⟨rfl, h.pos, h.reads⟩

/-- After the flags and the width: what is no digit ends the directive. -/
theorem digits_advance (h : Here C .width p s) (hbefore : C.format (p - 1) ≠ chr '%') :
    ∃ t, Leads C s t ∧ At C (if IsWidth (C.format p) then .digits else .text) (p + 1) t := by
  split_ifs with hwidth
  · exact ⟨_, leads_step rfl, stepWidth_digit h hwidth, (flag_ne (Or.inr (Or.inr hwidth))).2⟩
  · have hback := stepWidth_other h hwidth
    exact ⟨_, (leads_step rfl).head rfl, stepBack_text hback (Or.inr hbefore)⟩

/-- From the test for `-` on. -/
theorem minus_advance (h : Here C .minus p s) (hflags : C.format p = chr '-' ∨ IsWidth (C.format p)) :
    ∃ t, Leads C s t ∧ At C .digits (p + 1) t := by
  have hne := (flag_ne (Or.inr hflags)).2
  by_cases hminus : C.format p = chr '-'
  · exact ⟨_, leads_step rfl, stepMinus_minus h hminus, hne⟩
  · have hwidth := hflags.resolve_left hminus
    exact ⟨_, (leads_step rfl).head rfl, stepWidth_digit (stepMinus_other h hminus) hwidth, hne⟩

theorem text_advance (h : AtText p s) (hc : C.format p ≠ 0) :
    At C (if C.format p = chr '%' then .percent else .text) (p + 1) (step C s) := by
  obtain ⟨hlabel, rfl, hreads⟩ := h
  have hstep : step C s = stepLoop C s := by rw [step, hlabel]
  have hkept : ∀ i ∈ s.pos :: s.reads, i ≤ s.pos + 1 :=
    List.forall_mem_cons.mpr ⟨Nat.le_succ _, fun i hi => (hreads i hi).trans (Nat.le_succ _)⟩
  rw [hstep]
  split_ifs with hpercent
  · rw [stepLoop_percent hpercent]
    exact ⟨⟨rfl, rfl, List.forall_mem_cons.mpr ⟨le_rfl, hkept⟩⟩, hpercent⟩
  · rw [stepLoop_literal hc hpercent]
    exact ⟨rfl, rfl, hkept⟩

/-- One character of the format. -/
theorem advance {m m' : Mode} (h : At C m p s) (hc : C.format p ≠ 0) (hnext : next m (C.format p) = some m') :
    ∃ t, Leads C s t ∧ At C m' (p + 1) t := by
  cases m with
  | text =>
    rw [next, Option.some.injEq] at hnext
    subst hnext
    exact ⟨_, leads_step rfl, text_advance h hc⟩
  | percent =>
    rw [next] at hnext
    split_ifs at hnext with hconv hpad hflags
    · obtain rfl := Option.some.inj hnext
      exact ⟨_, leads_step rfl, stepBack_text h.1 (Or.inl hconv)⟩
    · obtain rfl := Option.some.inj hnext
      exact ⟨_, leads_step rfl, (stepBack_percent h.1 h.2 hconv).1 hpad, (flag_ne (Or.inl hpad)).2⟩
    · obtain rfl := Option.some.inj hnext
      obtain ⟨t, hlead, ht⟩ := minus_advance ((stepBack_percent h.1 h.2 hconv).2 hpad) hflags
      exact ⟨t, hlead.head rfl, ht⟩
  | pad =>
    rw [next, Option.some.injEq] at hnext
    by_cases hflags : C.format p = chr '-' ∨ IsWidth (C.format p)
    · rw [if_pos hflags] at hnext
      subst hnext
      exact minus_advance h.1 hflags
    · rw [if_neg hflags] at hnext
      subst hnext
      obtain ⟨hminus, hwidth⟩ := not_or.mp hflags
      obtain ⟨t, hlead, ht⟩ := digits_advance (stepMinus_other h.1 hminus) h.2
      rw [if_neg hwidth] at ht
      exact ⟨t, hlead.head rfl, ht⟩
  | digits =>
    rw [next, Option.some.injEq] at hnext
    subst hnext
    exact digits_advance h.1 h.2

/-! ### The end -/

/-- The call returns at the NUL. -/
theorem text_finish (h : AtText p s) (hc : C.format p = 0) :
    (step C s).label = .done ∧ ∀ i ∈ (step C s).reads, i ≤ p := by
  obtain ⟨hlabel, rfl, hreads⟩ := h
  have hstep : step C s = stepLoop C s := by rw [step, hlabel]
  rw [hstep, stepLoop_nul hc]
  exact ⟨rfl, List.forall_mem_cons.mpr ⟨le_rfl, hreads⟩⟩

/-- A NUL after the flags or the width counts as a conversion. -/
theorem overrun (h : Here C .width p s) (hbefore : C.format (p - 1) ≠ chr '%') (hc : C.format p = 0) :
    ∃ t, Leads C s t ∧ p + 1 ∈ t.reads := by
  obtain ⟨t, hlead, ht⟩ := digits_advance h hbefore
  rw [if_neg (by rw [hc]; decide)] at ht
  refine ⟨step C t, hlead.trans (leads_step rfl), ?_⟩
  have hstep : step C t = stepLoop C t := by rw [step, ht.label]
  have hread : p + 1 ∈ (fetch C (fun _ => .done) t).reads := by
    rw [fetch, ht.pos]
    exact List.mem_cons_self
  rw [hstep, stepLoop]
  dsimp only
  split_ifs
  · exact hread
  · exact hread
  · exact List.mem_cons_of_mem _ hread

/-- The character right after `%` is not consumed. -/
structure Spins (C : Call) (p : ℕ) (s : State) : Prop where
  pos : s.pos = p + 1
  before : C.format (p - 1) = chr '%'
  bare : next .percent (C.format p) = none
  label : s.label = .back (C.format p) ∨ s.label = .minus (C.format p) ∨ s.label = .width (C.format p)

theorem bare_iff {c : Byte} : next .percent c = none ↔
    ¬IsConversion c ∧ ¬IsPad c ∧ c ≠ chr '-' ∧ ¬IsWidth c := by
  rw [next]
  split_ifs <;> tauto

/-- It goes round and round. -/
theorem Spins.step (h : Spins C p s) : Spins C p (step C s) := by
  obtain ⟨hpos, hbefore, hbare, hlabel⟩ := h
  obtain ⟨hconv, hpad, hminus, hwidth⟩ := bare_iff.mp hbare
  have hback : s.pos - 2 = p - 1 := by rw [hpos]; omega
  rcases hlabel with hl | hl | hl
  · have hstep : Klibc.step C s = { s with reads := (p - 1) :: s.reads, label := .minus (C.format p) } := by
      rw [Klibc.step, hl]
      dsimp only
      rw [stepBack_flags hconv (by rw [hback]; exact hbefore), if_neg hpad, hback]
    rw [hstep]
    exact ⟨hpos, hbefore, hbare, Or.inr (Or.inl rfl)⟩
  · have hstep : Klibc.step C s = { s with label := .width (C.format p), num := 0 } := by
      rw [Klibc.step, hl]
      exact if_neg hminus
    rw [hstep]
    exact ⟨hpos, hbefore, hbare, Or.inr (Or.inr rfl)⟩
  · have hstep : Klibc.step C s = { s with label := .back (C.format p) } := by
      rw [Klibc.step, hl]
      exact if_neg hwidth
    rw [hstep]
    exact ⟨hpos, hbefore, hbare, Or.inl rfl⟩

theorem Spins.not_done (h : Spins C p s) : s.label ≠ .done := by
  intro hdone
  have := h.label
  rw [hdone] at this
  rcases this with h | h | h <;> cases h

end Steps

/-! ### The whole format -/

section Format

variable {C : Call} {s t : State} {n : ℕ}

/-- Nothing that has been read is forgotten. -/
theorem step_reads {i : ℕ} (hi : i ∈ s.reads) : i ∈ (step C s).reads := by
  have hcons : ∀ j, i ∈ j :: s.reads := fun j => List.mem_cons_of_mem j hi
  rw [step]
  split
  · rw [stepLoop]
    dsimp only
    split_ifs
    · exact hcons _
    · exact hcons _
    · exact List.mem_cons_of_mem _ (hcons _)
  · rename_i c _
    by_cases hconv : IsConversion c
    · rcases hconv with hd | hu | hx | hs | hchar
      · rw [stepBack_number (Or.inl hd)]
        exact hi
      · rw [stepBack_number (Or.inr (Or.inl hu))]
        exact hi
      · rw [stepBack_number (Or.inr (Or.inr hx))]
        exact hi
      · rw [hs, stepBack_string]
        exact hi
      · rw [hchar, stepBack_char]
        exact hi
    · by_cases hbefore : C.format (s.pos - 2) = chr '%'
      · rw [stepBack_flags hconv hbefore]
        split_ifs
        · exact List.mem_cons_of_mem _ (hcons _)
        · exact hcons _
      · rw [stepBack_other hconv hbefore]
        exact hcons _
  · rw [stepMinus]
    split_ifs
    · exact hcons _
    · exact hi
  · rw [stepWidth]
    split_ifs
    · exact hcons _
    · exact hi
  · exact hi

/-- The fate of a format is that of its characters: the call returns and has read no further
than the NUL, or it spins, or reads behind it. -/
theorem format_decided (text : List Byte) : ∀ (m : Mode) (p : ℕ) (s : State), FormatAt C p text → At C m p s →
    if accepts m text then
      ∃ t, Leads C s t ∧ t.label = .done ∧ ∀ i ∈ t.reads, i ≤ p + text.length
    else ∃ t, Leads C s t ∧ ((∃ q, Spins C q t) ∨ p + text.length + 1 ∈ t.reads) := by
  induction text with
  | nil =>
    intro m p s hnul h
    have hnul : C.format p = 0 := hnul
    cases m with
    | text => exact ⟨_, leads_step rfl, text_finish h hnul⟩
    | percent =>
      refine ⟨s, Leads.refl s, Or.inl ⟨p, h.1.pos, h.2, ?_, Or.inl h.1.label⟩⟩
      rw [hnul]
      decide
    | pad =>
      have hwidth := stepMinus_other h.1 (by rw [hnul]; decide)
      obtain ⟨t, hlead, ht⟩ := overrun hwidth h.2 hnul
      exact ⟨t, hlead.head rfl, Or.inr ht⟩
    | digits =>
      obtain ⟨t, hlead, ht⟩ := overrun h.1 h.2 hnul
      exact ⟨t, hlead, Or.inr ht⟩
  | cons c text ih =>
    rintro m p s ⟨rfl, hc, htext⟩ h
    have hlong : p + (C.format p :: text).length = p + 1 + text.length := by
      rw [List.length_cons]
      omega
    rw [hlong, accepts]
    cases hnext : next m (C.format p) with
    | some m' =>
      obtain ⟨t, hlead, ht⟩ := advance h hc hnext
      have hrest := ih m' (p + 1) t htext ht
      dsimp only
      split_ifs at hrest ⊢
      · obtain ⟨u, hlead', hu⟩ := hrest
        exact ⟨u, hlead.trans hlead', hu⟩
      · obtain ⟨u, hlead', hu⟩ := hrest
        exact ⟨u, hlead.trans hlead', hu⟩
    | none =>
      have hpercent : m = .percent := by
        cases m with
        | percent => rfl
        | text => cases hnext
        | pad => cases hnext
        | digits => cases hnext
      subst hpercent
      exact ⟨s, Leads.refl s, Or.inl ⟨p, h.1.pos, h.2, hnext, Or.inl h.1.label⟩⟩

end Format

/-- For every NUL-terminated format and every argument list: the call returns and never reads a
byte of the format behind the NUL exactly if there is no `putchar` or the format is accepted. -/
theorem vprintf_ends_inside_iff (C : Call) (text : List Byte) (hformat : FormatAt C 0 text) (registered : Bool) :
    ((∃ n, (run C n (vprintf registered)).label = .done) ∧
        ∀ n, ∀ i ∈ (run C n (vprintf registered)).reads, i ≤ text.length) ↔
      registered = false ∨ accepts .text text = true := by
  cases registered with
  | false =>
    refine iff_of_true ⟨⟨0, rfl⟩, fun n i hi => ?_⟩ (Or.inl rfl)
    rw [run_done rfl] at hi
    exact absurd hi List.not_mem_nil
  | true =>
    have hstart : At C .text 0 (vprintf true) := ⟨rfl, rfl, List.forall_mem_nil _⟩
    have hfate := format_decided text .text 0 _ hformat hstart
    rw [Nat.zero_add] at hfate
    have hkept : ∀ (i n m : ℕ), i ∈ (run C n (vprintf true)).reads → i ∈ (run C (n + m) (vprintf true)).reads := by
      intro i n m hi
      rw [run_add]
      exact run_invariant (fun s => i ∈ s.reads) (fun _ => step_reads) hi m
    split_ifs at hfate with haccepts
    · refine iff_of_true ⟨?_, fun n i hi => ?_⟩ (Or.inr haccepts)
      · obtain ⟨t, ⟨n, rfl⟩, hdone, -⟩ := hfate
        exact ⟨n, hdone⟩
      · obtain ⟨t, ⟨m, rfl⟩, hdone, hreads⟩ := hfate
        have hlate := hkept i n m hi
        rw [Nat.add_comm, run_add, run_done hdone] at hlate
        exact hreads i hlate
    · refine iff_of_false ?_ (by simp [haccepts])
      rintro ⟨⟨n, hdone⟩, hreads⟩
      obtain ⟨t, ⟨m, rfl⟩, ⟨q, hspins⟩ | hbehind⟩ := hfate
      · have hlate := run_invariant (Spins C q) (fun _ => Spins.step) hspins n
        rw [← run_add, Nat.add_comm, run_add, run_done hdone] at hlate
        exact hlate.not_done hdone
      · have := hreads m _ hbehind
        omega

/-- A call with the format `text`, without arguments. -/
def callOf (text : List Byte) : Call := ⟨fun i => text.getD i 0, fun _ => 0, fun _ => []⟩

theorem formatAt_callOf {text : List Byte} (htext : ∀ c ∈ text, c ≠ 0) : FormatAt (callOf text) 0 text := by
  have hdrop : ∀ (rest : List Byte) (p : ℕ), (∀ i, rest.getD i 0 = text.getD (p + i) 0) → (∀ c ∈ rest, c ≠ 0) →
      FormatAt (callOf text) p rest := by
    intro rest
    induction rest with
    | nil => exact fun p h _ => (h 0).symm
    | cons c rest ih =>
      intro p h hne
      obtain ⟨hc, hrest⟩ := List.forall_mem_cons.mp hne
      refine ⟨(h 0).symm, hc, ih (p + 1) (fun i => ?_) hrest⟩
      rw [Nat.add_assoc, Nat.add_comm 1 i]
      exact h (i + 1)
  exact hdrop text 0 (fun i => by rw [Nat.zero_add]) htext

theorem vprintf_ends_inside_width :
    (∃ n, (run (callOf (['%', '-', '5', 'd'].map chr)) n (vprintf true)).label = .done) ∧
      ∀ n, ∀ i ∈ (run (callOf (['%', '-', '5', 'd'].map chr)) n (vprintf true)).reads, i ≤ 4 :=
  (vprintf_ends_inside_iff _ (['%', '-', '5', 'd'].map chr) (formatAt_callOf (by decide)) true).mpr
    (Or.inr (by decide))

/-- `%%` is never passed. -/
theorem double_percent_spins : ¬∀ (C : Call) (text : List Byte) (registered : Bool), FormatAt C 0 text →
    (∃ n, (run C n (vprintf registered)).label = .done) ∧
      ∀ n, ∀ i ∈ (run C n (vprintf registered)).reads, i ≤ text.length := by
  intro hall
  obtain ⟨⟨n, hdone⟩, -⟩ := hall (callOf (['%', '%'].map chr)) (['%', '%'].map chr) true (formatAt_callOf (by decide))
  have hspins : Spins (callOf (['%', '%'].map chr)) 1 (run (callOf (['%', '%'].map chr)) 1 (vprintf true)) :=
    ⟨rfl, rfl, by decide, Or.inl rfl⟩
  have hlate := run_invariant (Spins _ 1) (fun _ => Spins.step) hspins n
  rw [← run_add, Nat.add_comm, run_add, run_done hdone] at hlate
  exact hlate.not_done hdone

end JustKernel.Klibc
