import JustKernel.Proc.V86CallQueue

/-! Runs of the call queue: any number of clients enqueue calls on distinct
records while the worker makes its steps. The calls completed so far are a
beginning of the calls enqueued; the worker's visible steps are one block for
each of them, followed by the begun block of the next one; and the worker is
never blocked while a call waits, so it completes one call for every twelve
steps it makes. -/

namespace JustKernel.V86

open Memory

variable {K : Type} [DecidableEq K] {sym : Symbols} {bios : Byte → Machine → Machine → Prop}

/-- Where a run stands: the calls `done` are completed, the calls `rest` are not. -/
structure Progress (tr : List (Label K)) (s : State K) (done : List (Served K))
    (rest : List (K × Call)) (obs : List (Label K)) (rank : ℕ) : Prop where
  requested : requests tr = done.map Served.request ++ rest
  shown : observed tr = done.flatMap Served.labels ++ obs
  steps : workerSteps tr = 12 * done.length + rank
  results : ∀ d ∈ done, s.calls d.k = d.result
  stage : Stage s rest obs rank
  code : CodeLoaded s.machine.mem
  proc : s.v86Proc = true

omit [DecidableEq K] in
theorem requests_append (tr : List (Label K)) (l : Label K) :
    requests (tr ++ [l]) = requests tr ++ requests [l] :=
  List.filterMap_append

omit [DecidableEq K] in
theorem observed_append (tr : List (Label K)) (l : Label K) :
    observed (tr ++ [l]) = observed tr ++ observed [l] :=
  List.filter_append ..

omit [DecidableEq K] in
theorem workerSteps_append (tr : List (Label K)) (l : Label K) :
    workerSteps (tr ++ [l]) = workerSteps tr + workerSteps [l] := by
  rw [workerSteps, List.filter_append, List.length_append]
  rfl

omit [DecidableEq K] in
theorem Served.map_request_fst (done : List (Served K)) :
    (done.map Served.request).map Prod.fst = done.map Served.k := by
  rw [List.map_map]
  rfl

omit [DecidableEq K] in
theorem Progress.start (init : State K) : Progress [] (v86Init init) [] [] [] 0 where
  requested := rfl
  shown := rfl
  steps := rfl
  results := fun _ h => nomatch h
  stage := .polling [] rfl rfl fun _ h => nomatch h
  code := by
    unfold CodeLoaded v86Init
    simp [copyCode, v86Code, v86Ptr]
  proc := rfl

/-- A client enqueues a call on a fresh record. -/
theorem Progress.enqueue {tr : List (Label K)} {s : State K} {done : List (Served K)}
    {rest : List (K × Call)} {obs : List (Label K)} {rank : ℕ} (h : Progress tr s done rest obs rank)
    {k : K} {call : Call} (hk : k ∉ (requests tr).map Prod.fst) :
    Progress (tr ++ [.enqueue k call]) (v86Call k call s) done (rest ++ [(k, call)]) obs rank := by
  rw [h.requested, List.map_append, List.mem_append, not_or, Served.map_request_fst] at hk
  have hmachine : (v86Call k call s).machine = s.machine := by
    simp [v86Call, h.proc]
  refine ⟨?_, ?_, ?_, ?_, h.stage.enqueue h.proc hk.2, ?_, ?_⟩
  · rw [requests_append, h.requested, List.append_assoc]
    rfl
  · rw [observed_append, h.shown]
    exact List.append_nil _
  · rw [workerSteps_append, h.steps]
    rfl
  · intro d hd
    have hdk : d.k ≠ k := by rintro rfl; exact hk.1 (List.mem_map_of_mem hd)
    have hcalls : (v86Call k call s).calls d.k = s.calls d.k := by
      simp [v86Call, h.proc, Function.update_of_ne hdk]
    rw [hcalls]
    exact h.results d hd
  · rw [hmachine]
    exact h.code
  · simp [v86Call, h.proc]

/-- The worker makes a step. -/
theorem Progress.worker (hbios : BiosReturns bios) {tr : List (Label K)} {s t : State K}
    {l : Label K} {done : List (Served K)} {rest : List (K × Call)} {obs : List (Label K)} {rank : ℕ}
    (h : Progress tr s done rest obs rank) (hnodup : ((requests tr).map Prod.fst).Nodup)
    (hreq : ∀ r ∈ requests tr, r.2.type = .genericInt ∧ r.2.intNum ≠ 3)
    (hstep : WorkerStep sym bios s l t) :
    ∃ done' rest' obs' rank', Progress (tr ++ [l]) t done' rest' obs' rank' := by
  rw [h.requested, List.map_append, Served.map_request_fst, List.nodup_append] at hnodup
  obtain ⟨-, hrest, hdisjoint⟩ := hnodup
  have hreq' : ∀ r ∈ rest, r.2.type = .genericInt ∧ r.2.intNum ≠ 3 := by
    intro r hr
    apply hreq
    rw [h.requested]
    exact List.mem_append_right _ hr
  obtain ⟨hmoved, hcode, hproc, hothers⟩ := h.stage.step hbios h.code hreq' hrest hstep
  have hresults : ∀ d ∈ done, t.calls d.k = d.result := by
    intro d hd
    rw [hothers d.k fun hmem => hdisjoint _ (List.mem_map_of_mem hd) _ hmem rfl]
    exact h.results d hd
  have hproc' : t.v86Proc = true := hproc.trans h.proc
  cases hmoved with
  | waited heq =>
    subst heq
    refine ⟨done, rest, obs, rank, ?_, ?_, ?_, hresults, h.stage, hcode, hproc'⟩
    · rw [requests_append, h.requested]
      exact List.append_nil _
    · rw [observed_append, h.shown]
      exact List.append_nil _
    · rw [workerSteps_append, h.steps]
      rfl
  | advanced _ hstage hrequest hcount =>
    refine ⟨done, rest, _, _, ?_, ?_, ?_, hresults, hstage, hcode, hproc'⟩
    · rw [requests_append, h.requested, hrequest, List.append_nil]
    · rw [observed_append, h.shown, List.append_assoc]
    · rw [workerSteps_append, h.steps, hcount]
      omega
  | completed d more hrest' hrank hobs hresult hstage =>
    refine ⟨done ++ [d], more, [], 0, ?_, ?_, ?_, ?_, hstage, hcode, hproc'⟩
    · rw [requests_append, h.requested, hrest']
      simp [requests]
    · have hlabel : observed [Label.complete d.k] = [Label.complete d.k] := rfl
      rw [observed_append, h.shown, hlabel, List.append_assoc, hobs]
      simp
    · have hcount : workerSteps [Label.complete d.k] = 1 := rfl
      rw [workerSteps_append, h.steps, hrank, hcount, List.length_append, List.length_singleton]
      omega
    · intro d' hd'
      rcases List.mem_append.mp hd' with hd' | hd'
      · exact hresults d' hd'
      · rw [List.mem_singleton.mp hd']
        exact hresult

theorem run_progress (hbios : BiosReturns bios) (init : State K) {tr : List (Label K)} {s : State K}
    (hrun : Run sym bios (v86Init init) tr s) (hnodup : ((requests tr).map Prod.fst).Nodup)
    (hreq : ∀ r ∈ requests tr, r.2.type = .genericInt ∧ r.2.intNum ≠ 3) :
    ∃ done rest obs rank, Progress tr s done rest obs rank := by
  induction hrun with
  | start => exact ⟨[], [], [], 0, Progress.start init⟩
  | @step tr s t l hrun hstep ih =>
    rw [requests_append, List.map_append, List.nodup_append] at hnodup
    have hreq' : ∀ r ∈ requests tr, r.2.type = .genericInt ∧ r.2.intNum ≠ 3 := by
      intro r hr
      apply hreq
      rw [requests_append]
      exact List.mem_append_left _ hr
    obtain ⟨done, rest, obs, rank, h⟩ := ih hnodup.1 hreq'
    rcases step_cases hstep with ⟨k, call, rfl, rfl⟩ | hworker
    · refine ⟨done, _, obs, rank, h.enqueue fun hk => ?_⟩
      exact hnodup.2.2 k hk k (List.mem_singleton_self k) rfl
    · exact h.worker hbios hnodup.1 hreq' hworker

omit [DecidableEq K] in
theorem requests_workerStep {l : Label K} (h : workerSteps [l] = 1) : requests [l] = [] := by
  cases l with
  | enqueue => cases h
  | _ => rfl

/-- A run goes on with worker steps, twelve for each call that has been enqueued. -/
theorem run_goes_on (hbios : BiosReturns bios) (init : State K) {tr : List (Label K)} {s : State K}
    (hrun : Run sym bios (v86Init init) tr s) (hnodup : ((requests tr).map Prod.fst).Nodup)
    (hreq : ∀ r ∈ requests tr, r.2.type = .genericInt ∧ r.2.intNum ≠ 3) (n : ℕ)
    (hn : workerSteps tr + n ≤ 12 * (requests tr).length) :
    ∃ tr' s', Run sym bios (v86Init init) tr' s' ∧ requests tr' = requests tr ∧
      workerSteps tr' = workerSteps tr + n := by
  induction n with
  | zero => exact ⟨tr, s, hrun, rfl, rfl⟩
  | succ n ih =>
    obtain ⟨tr', s', hrun', hsame, hsteps⟩ := ih (by omega)
    obtain ⟨done, rest, obs, rank, h⟩ := run_progress hbios init hrun' (hsame ▸ hnodup) (hsame ▸ hreq)
    have hne : rest ≠ [] := by
      rintro rfl
      have hlength := congrArg List.length h.requested
      rw [List.append_nil, List.length_map, hsame] at hlength
      have := h.steps
      omega
    obtain ⟨l, t, hstep, hcount⟩ := h.stage.canStep hbios h.code hne
    refine ⟨tr' ++ [l], t, hrun'.step hstep, ?_, ?_⟩
    · rw [requests_append, requests_workerStep hcount, List.append_nil, hsame]
    · rw [workerSteps_append, hcount, hsteps, Nat.add_assoc]

omit [DecidableEq K] in
theorem GuestStage.rank_lt {call : Call} {phase : Phase K} {m : Machine} {obs : List (Label K)}
    {rank : ℕ} (h : GuestStage call phase m obs rank) : rank < 10 := by
  cases h <;> omega

omit [DecidableEq K] in
theorem Stage.rank_lt {s : State K} {rest : List (K × Call)} {obs : List (Label K)} {rank : ℕ}
    (h : Stage s rest obs rank) : rank < 12 := by
  cases h with
  | busy k call more _ _ hguest => exact hguest.rank_lt.trans (by omega)
  | _ => omega

omit [DecidableEq K] in
theorem GuestStage.obs_begun {call : Call} {phase : Phase K} {m : Machine} {obs : List (Label K)}
    {rank : ℕ} (h : GuestStage call phase m obs rank) :
    ∃ out, obs <+: [.interrupt call.intNum call.entry, .returned out] := by
  cases h with
  | entered => exact ⟨call.ctx, List.nil_prefix⟩
  | loaded => exact ⟨call.ctx, List.nil_prefix⟩
  | raised => exact ⟨call.ctx, [_], rfl⟩
  | handled => exact ⟨call.ctx, [_], rfl⟩
  | returned => exact ⟨_, List.prefix_rfl⟩
  | jumped => exact ⟨_, List.prefix_rfl⟩
  | pushed => exact ⟨_, List.prefix_rfl⟩
  | exiting => exact ⟨_, List.prefix_rfl⟩

omit [DecidableEq K] in
/-- The begun block belongs to the first call that is not completed. -/
theorem Stage.obs_begun {s : State K} {rest : List (K × Call)} {obs : List (Label K)} {rank : ℕ}
    (h : Stage s rest obs rank) :
    obs = [] ∨ ∃ r more out, rest = r :: more ∧
      obs <+: [.interrupt r.2.intNum r.2.entry, .returned out, .store r.1 out] := by
  cases h with
  | polling => exact Or.inl rfl
  | launching => exact Or.inl rfl
  | busy k call more _ _ hguest =>
    obtain ⟨out, hout⟩ := hguest.obs_begun
    exact Or.inr ⟨_, _, out, rfl, hout.trans ⟨[_], rfl⟩⟩
  | storing => exact Or.inr ⟨_, _, _, rfl, [_], rfl⟩
  | marking => exact Or.inr ⟨_, _, _, rfl, List.prefix_rfl⟩

omit [DecidableEq K] in
theorem Stage.types {s : State K} {rest : List (K × Call)} {obs : List (Label K)} {rank : ℕ}
    (h : Stage s rest obs rank) (hreq : ∀ r ∈ rest, r.2.type = .genericInt) :
    ∀ r ∈ rest, (s.calls r.1).type = .genericInt := by
  have hwaiting : ∀ {l : List (K × Call)}, Waiting s l → (∀ r ∈ l, r.2.type = .genericInt) →
      ∀ r ∈ l, (s.calls r.1).type = .genericInt := by
    intro l hwait hl r hr
    rw [hwait r hr]
    exact hl r hr
  cases h with
  | polling _ _ _ hwait => exact hwaiting hwait hreq
  | launching _ _ _ _ hwait => exact hwaiting hwait hreq
  | busy k call more _ _ _ _ hwait htype =>
    exact List.forall_mem_cons.mpr ⟨htype, hwaiting hwait (List.forall_mem_cons.mp hreq).2⟩
  | storing k call more _ _ _ hwait htype =>
    exact List.forall_mem_cons.mpr ⟨htype, hwaiting hwait (List.forall_mem_cons.mp hreq).2⟩
  | marking k call more _ _ hwait htype =>
    exact List.forall_mem_cons.mpr ⟨htype, hwaiting hwait (List.forall_mem_cons.mp hreq).2⟩

/-- In every run, with interrupts other than `INT 3`: the calls completed are the first
ones enqueued; for each of them, in this order, the guest enters the interrupt with the
registers of the call, comes back with the registers that are then stored in the record,
and only after that the record is marked; one more call may be begun, and none of the
remaining ones is marked; the worker completes a call with every twelfth step and always
has a next step while a call waits. -/
theorem call_queue (hbios : BiosReturns bios) (init : State K) {tr : List (Label K)} {s : State K}
    (hrun : Run sym bios (v86Init init) tr s) (hnodup : ((requests tr).map Prod.fst).Nodup)
    (hreq : ∀ r ∈ requests tr, r.2.type = .genericInt ∧ r.2.intNum ≠ 3) :
    ∃ (done : List (Served K)) (rest : List (K × Call)) (obs : List (Label K)),
      requests tr = done.map Served.request ++ rest ∧
      observed tr = done.flatMap Served.labels ++ obs ∧
      (obs = [] ∨ ∃ r more out, rest = r :: more ∧
        obs <+: [.interrupt r.2.intNum r.2.entry, .returned out, .store r.1 out]) ∧
      (∀ d ∈ done, s.calls d.k = d.result) ∧
      (∀ r ∈ rest, (s.calls r.1).type = .genericInt) ∧
      done.length = workerSteps tr / 12 ∧
      (rest ≠ [] → ∃ l t, Step sym bios s l t ∧ workerSteps [l] = 1) := by
  obtain ⟨done, rest, obs, rank, h⟩ := run_progress hbios init hrun hnodup hreq
  refine ⟨done, rest, obs, h.requested, h.shown, h.stage.obs_begun, h.results, ?_, ?_, ?_⟩
  · apply h.stage.types
    intro r hr
    refine (hreq r ?_).1
    rw [h.requested]
    exact List.mem_append_right _ hr
  · have := h.stage.rank_lt
    rw [h.steps]
    omega
  · exact h.stage.canStep hbios h.code

/-- A BIOS whose handlers set `ax` and return through an `iret` at `0000:0500`. -/
def simpleBios (_ : Byte) (m m' : Machine) : Prop :=
  m' = { m with
    mem := Function.update m.mem 0x500 0xcf
    regs := { m.regs with cs := 0, eip := 0x500, eax := 0x4F } }

theorem simpleBios_returns : BiosReturns simpleBios where
  returns _ _ _ := ⟨_, rfl⟩
  balanced := by
    rintro n m _ h rfl
    have hcode : CodeLoaded (Function.update m.mem 0x500 0xcf) :=
      h.code.of_eq fun a ha _ _ => Function.update_of_ne (by omega) _ _
    have haddr : fpToLinear 0 0x500 = 0x500 := by decide
    refine ⟨⟨h.ss, h.sp, ?_, ?_, hcode⟩, ?_⟩
    · dsimp only
      rw [read32, load_update_of_not_mem m.mem _ (by omega)]
      exact h.eip
    · dsimp only
      rw [read16, load_update_of_not_mem m.mem _ (by omega)]
      exact h.cs
    · simp only [ipByte, Function.iterate_zero, id_eq, haddr, Function.update_self]

def blankState : State ℕ where
  machine := ⟨⟨0, 0, 0, 0, 0, 0, 0, 0, 0, 0, 0, 0, 0, 0, 0, 0, 0, 0⟩, false, 0, fun _ => 0⟩
  phase := .polling
  queue := []
  calls _ := ⟨⟨0, 0, 0, 0, 0, 0, 0, 0⟩, .complete, 0⟩
  v86Proc := false

/-- A request for interrupt `n` with `ax = 1`. -/
def callInt (n : Byte) : Call := ⟨⟨0, 0, 0, 0, 0, 0, 0, 1⟩, .genericInt, n⟩

/-- Two clients enqueue a video and a disk call, and the worker completes both. -/
theorem call_queue_two_clients :
    ∃ (tr : List (Label ℕ)) (s : State ℕ) (out out' : Ctx), Run ⟨0, 0⟩ simpleBios (v86Init blankState) tr s ∧
      observed tr = [.interrupt 0x10 (callInt 0x10).entry, .returned out, .store 0 out, .complete 0,
        .interrupt 0x13 (callInt 0x13).entry, .returned out', .store 1 out', .complete 1] ∧
      s.calls 0 = ⟨out, .complete, 0x10⟩ ∧ s.calls 1 = ⟨out', .complete, 0x13⟩ := by
  have hstart : Run ⟨0, 0⟩ simpleBios (v86Init blankState)
      [.enqueue 0 (callInt 0x10), .enqueue 1 (callInt 0x13)] _ :=
    .step (.step .start (.enqueue _ _ _)) (.enqueue _ _ _)
  obtain ⟨tr, s, hrun, htr, hsteps⟩ :=
    run_goes_on simpleBios_returns blankState hstart (by decide) (by decide) 24 (by decide)
  change requests tr = [(0, callInt 0x10), (1, callInt 0x13)] at htr
  change workerSteps tr = 24 at hsteps
  obtain ⟨done, rest, obs, hsplit, hshown, hobs, hresults, -, hcount, -⟩ :=
    call_queue simpleBios_returns blankState hrun (by rw [htr]; decide) (by rw [htr]; decide)
  rw [hsteps] at hcount
  rw [htr] at hsplit
  match done, hcount with
  | [⟨k, call, out⟩, ⟨k', call', out'⟩], _ =>
    obtain ⟨hfirst, hsecond, hnone⟩ : (0, callInt 0x10) = (k, call) ∧ (1, callInt 0x13) = (k', call') ∧ [] = rest := by
      simpa [Served.request] using hsplit
    cases hfirst
    cases hsecond
    have hidle : obs = [] := by
      rcases hobs with hnil | ⟨_, _, _, hcons, -⟩
      · exact hnil
      · cases hnone.trans hcons
    rw [hidle, List.append_nil] at hshown
    exact ⟨tr, s, out, out', hrun, hshown, hresults _ List.mem_cons_self,
      hresults _ (List.mem_cons_of_mem _ List.mem_cons_self)⟩

/-- With a patched `INT 3`, the guest code is at its exit right after `popa`. -/
theorem popa_breakpoint {m : Machine} (h : GuestAt 0x7C00 0x9FF0 m) (hcode : CodeLoaded m.mem)
    (hint : m.mem 0x7C02 = 3) :
    ipByte 0 (popa (v86GetIpByte m).2) = 0xcd ∧ ipByte 1 (popa (v86GetIpByte m).2) = 3 :=
  ⟨((popa_guestAt h).ipByte 0).trans hcode.2.1, ((popa_guestAt h).ipByte 1).trans hint⟩

/-- A request for `INT 3` meets the gate by which the guest code leaves: the record is marked
complete although the guest never entered the interrupt. -/
theorem breakpoint_never_entered :
    ∃ (tr : List (Label ℕ)) (s : State ℕ), Run ⟨0, 0⟩ simpleBios (v86Init blankState) tr s ∧
      requests tr = [(0, callInt 3)] ∧ (s.calls 0).type = .complete ∧
      ∀ n regs, Label.interrupt n regs ∉ tr := by
  have hcode := (Progress.start blankState).code
  let s₁ := v86Call 0 (callInt 3) (v86Init blankState)
  let s₂ : State ℕ := { s₁ with phase := .launching }
  obtain ⟨hguest, hcode₃⟩ := v86CallGenericInt_entered (K := ℕ) (callInt 3) hcode
  have hs₃ : v86Enter 0 s₂ = { s₂ with
      machine := v86CallGenericInt (callInt 3).intNum (callInt 3).entry s₁.machine
      calls := Function.update s₂.calls 0 { callInt 3 with ctx := (callInt 3).entry }
      phase := .guest } := rfl
  have henter : Step ⟨0, 0⟩ simpleBios s₂ .internal (v86Enter 0 s₂) := .enter s₂ 0 [] rfl rfl
  rw [hs₃] at henter
  change GuestStage (callInt 3) .guest (v86CallGenericInt _ _ s₁.machine) [] 2 at hguest
  change CodeLoaded (v86CallGenericInt _ _ s₁.machine).mem at hcode₃
  generalize v86CallGenericInt (callInt 3).intNum (callInt 3).entry s₁.machine = m at *
  obtain ⟨hat, hint⟩ : GuestAt 0x7C00 0x9FF0 m ∧ m.mem 0x7C02 = 3 := by
    generalize hrank : 2 = rank at hguest
    cases hguest with
    | entered _ hat hint => exact ⟨hat, hint⟩
    | _ => omega
  obtain ⟨hcd, h3⟩ := popa_breakpoint hat hcode₃ hint
  have hleave := v86Monitor_int ⟨0, 0⟩ hcd
  rw [if_pos h3] at hleave
  have hrun : Run ⟨0, 0⟩ simpleBios (v86Init blankState) _ _ :=
    .step (.step (.step (.step (.step (.step (.step (.step .start
      (.enqueue _ 0 (callInt 3))) (.leaveLoop s₁ rfl (by simp [s₁, v86Call, v86Init]))) henter)
      (.native _ _ rfl (nativeStep_popa hat hcode₃))) (.trapExit _ _ rfl hcd hleave))
      (.delete _ 0 [] rfl rfl)) (.copy _ 0 _ rfl rfl)) (.mark _ 0 rfl)
  refine ⟨_, _, hrun, rfl, ?_, ?_⟩
  · simp
  · simp

end JustKernel.V86
