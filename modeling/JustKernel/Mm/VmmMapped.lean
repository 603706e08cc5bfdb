import JustKernel.Mm.VmmIsolation

/-! `vmm_map_pages` on any range, whatever is mapped there. A page that is mapped
keeps its entry, and since `continue` skips the increments the loop stays at the
first such page; new entries appear on pages of the range only. The window pages
are always mapped, so that no range needs to avoid them. -/

namespace JustKernel.Vmm

open TwoLevel Halting

variable {σ : Type} {A : FrameAlloc σ} {L : Layout} {s t u : State σ} {d p v : Frame}
  {R R' : Frame → Prop}

/-- Pages keep their entries, and new ones lie in `R`. -/
structure Mapped (A : FrameAlloc σ) (L : Layout) (d : Frame) (R : Frame → Prop) (s t : State σ) :
    Prop where
  opened : Opened A L t d
  within : Within A L d (fun _ => True) s t
  keeps : ∀ v e, ¬WindowPage L s d v → entryAt s d v = some e → entryAt t d v = some e
  added : ∀ v, ¬WindowPage L s d v → entryAt t d v ≠ none → entryAt s d v ≠ none ∨ R v

theorem Opened.mapped (h : Opened A L s d) (R : Frame → Prop) : Mapped A L d R s s :=
  ⟨h, Within.refl A L d _ s, fun _ _ _ he => he, fun _ _ he => Or.inl he⟩

theorem Mapped.trans (hbase : A.taken s.pmm L.baseTable) (h : Mapped A L d R s t)
    (h' : Mapped A L d R' t u) (hR : ∀ v, R' v → R v) : Mapped A L d R s u where
  opened := h'.opened
  within := h.within.trans h'.within
  keeps v e hv he := h'.keeps v e (mt (h.within.windowPage_iff hbase v).mp hv) (h.keeps v e hv he)
  added v hv he := by
    rcases h'.added v (mt (h.within.windowPage_iff hbase v).mp hv) he with he' | hr
    · exact h.added v hv he'
    · exact Or.inr (hR v hr)

/-- The table of a page is entered. -/
theorem Opened.enter_mapped (h : Opened A L s d) (p : Frame) (R : Frame → Prop) :
    Ends (fun _ t => Entered A L t d (split p).1 ∧ Mapped A L d R s t) (fun t => A.alloc t.pmm = none)
      (enterTable A L (vmmVirtToOffs (pageAddr p)) s) := by
  refine ((h.enterTable_within (I := fun _ => True) trivial).and (h.enterTable_spec _)).imp
    fun _ t ht => ?_
  obtain ⟨⟨hentered, hwithin⟩, -, hagree⟩ := ht
  rw [(offs_pageAddr p).1] at hentered
  refine ⟨hentered, hentered.opened, hwithin, fun v e hv he => ?_, fun v hv he => ?_⟩
  · rw [hagree.entry v hv]
    exact he
  · rw [hagree.entry v hv] at he
    exact Or.inl he

/-- The entry of an unmapped page is written. -/
theorem Entered.write_mapped (h : Entered A L s d (split p).1)
    (habsent : ¬present (s.frames (tableFrame L s) (split p).2) = true) (e : Entry) (hp : R p) :
    Mapped A L d R s (setTableEntry L (split p).2 e s) := by
  have hentry : entryAt s d p = none := h.entry.trans (if_neg habsent)
  have hwin : ¬WindowPage L s d p := fun hw =>
    entryAt_of_window ⟨_, h.opened.dirWindow⟩ h.opened.tableWindow hw hentry
  obtain ⟨hopen, -, hafter⟩ := h.setTableEntry_spec hwin e
  refine ⟨hopen, h.setTableEntry_within trivial _ e, fun v e' _ he => ?_, fun v _ he => ?_⟩
  · rw [hafter, if_neg]
    · exact he
    · rintro rfl
      rw [hentry] at he
      cases he
  · by_cases hv : v = p
    · exact Or.inr (hv ▸ hp)
    · rw [hafter, if_neg hv] at he
      exact Or.inl he

theorem mapLoop_mapped (perms : BitVec 16) (n : ℕ) (phys : BitVec 32) (ret : ℕ) (h : Opened A L s d) :
    Ends (fun _ t => Mapped A L d (InRange p n) s t) (fun t => A.alloc t.pmm = none)
      (mapLoop A L perms n phys (pageAddr p) ret s) := by
  induction n generalizing s p phys ret with
  | zero => exact h.mapped _
  | succ n ih =>
    have hbase := h.directory.takenBase
    rw [mapLoop]
    refine Ends.bind (h.enter_mapped p (InRange p (n + 1))) fun _ t ht => ?_
    obtain ⟨hentered, hmapped⟩ := ht
    rw [get_bind_run, traverseTableEntry, (offs_pageAddr p).2, pageAddr_add]
    split_ifs with hpresent
    · rw [modify_bind_run]
      have habsent : ¬present (t.frames (tableFrame L t) (split p).2) = true := by
        simpa using hpresent
      have hwrite := hmapped.trans hbase (hentered.write_mapped habsent (phys ||| perms.setWidth 32)
        (inRange_first p n)) fun _ hv => hv
      exact (ih _ _ hwrite.opened).imp fun _ u hu => hwrite.trans hbase hu fun _ => inRange_next
    · exact (ih _ _ hmapped.opened).imp fun _ u hu => hmapped.trans hbase hu fun _ => inRange_shorter

/-- The operation on any range of a directory. -/
structure MappedPages (A : FrameAlloc σ) (L : Layout) (d : Frame) (R : Frame → Prop) (s t : State σ) :
    Prop where
  operated : Operated A L d (fun _ => True) s t
  keeps : ∀ v e, entryAt s d v = some e → entryAt t d v = some e
  added : ∀ v, entryAt t d v ≠ none → entryAt s d v ≠ none ∨ R v

theorem Directory.mappedPages (hdir : Directory A L s d) (hclosed : Closed L s)
    (R : Frame → Prop) : MappedPages A L d R s s :=
  ⟨⟨hdir, hclosed, Within.refl A L d _ s⟩, fun _ _ he => he, fun _ he => Or.inl he⟩

theorem MappedPages.trans (h : MappedPages A L d R s t) (h' : MappedPages A L d R' t u) :
    MappedPages A L d (fun v => R v ∨ R' v) s u where
  operated := ⟨h'.operated.directory, h'.operated.closed, h.operated.within.trans h'.operated.within⟩
  keeps v e he := h'.keeps v e (h.keeps v e he)
  added v he := by
    rcases h'.added v he with he' | hr
    · rcases h.added v he' with he'' | hr
      · exact Or.inl he''
      · exact Or.inr (Or.inl hr)
    · exact Or.inr (Or.inr hr)

theorem MappedPages.mono (h : MappedPages A L d R s t) (hR : ∀ v, R v → R' v) :
    MappedPages A L d R' s t :=
  ⟨h.operated, h.keeps, fun v he => (h.added v he).imp_right (hR v)⟩

theorem vmmMapPages_mapped (phys virt : BitVec 32) (count : ℕ) (perms : BitVec 16)
    (hdir : Directory A L s d) (hclosed : Closed L s) :
    Ends (fun _ t => MappedPages A L d (InRange (pageOf virt) count) s t) (fun t => A.alloc t.pmm = none)
      (vmmMapPages A L phys virt (pageAddr d) count perms s) := by
  obtain ⟨hopen, hagree⟩ := opened_openDir hdir hclosed
  have hwithin : Within A L d (fun _ => True) s (openDir L (pageAddr d) s) := by
    rw [openDir_run hclosed]
    exact within_setBaseEntry hdir.notBase (Or.inl rfl) _
  have hstart : Mapped A L d (InRange (pageOf virt) count) s (openDir L (pageAddr d) s) := by
    refine ⟨hopen, hwithin, fun v e hv he => ?_, fun v hv he => ?_⟩
    · rw [hagree.entry v hv]
      exact he
    · rw [hagree.entry v hv] at he
      exact Or.inl he
  unfold vmmMapPages
  rw [and_mask, and_mask, modify_bind_run]
  refine Ends.bind (mapLoop_mapped perms count (pageAddr (pageOf phys)) 0 hopen) fun ret t ht => ?_
  have hmapped := hstart.trans hdir.takenBase ht fun _ hv => hv
  have hwork : Working A L d (fun _ => True) s t := ⟨hmapped.opened, hmapped.within⟩
  have hoperated := hwork.close
  obtain ⟨-, -, hagree'⟩ := hmapped.opened.close
  -- pages other than the windows; the windows are closed before and after
  have hentry : ∀ v, ¬WindowPage L s d v →
      entryAt (closeDir L (closeTable L t)) d v = entryAt t d v := fun v hv =>
    hagree'.entry v (mt (hmapped.within.windowPage_iff hdir.takenBase v).mp hv)
  have hwindow : ∀ v, WindowPage L s d v →
      entryAt (closeDir L (closeTable L t)) d v = entryAt s d v := fun v hv =>
    entryAt_window hclosed hoperated.closed
      (fun i => hoperated.within.tableOf_taken hdir.takenBase i) hv
  refine ⟨hoperated, fun v e he => ?_, fun v he => ?_⟩
  · by_cases hv : WindowPage L s d v
    · exact (hwindow v hv).trans he
    · exact (hentry v hv).trans (hmapped.keeps v e hv he)
  · by_cases hv : WindowPage L s d v
    · exact Or.inl ((hwindow v hv) ▸ he)
    · exact hmapped.added v hv ((hentry v hv) ▸ he)

end JustKernel.Vmm
