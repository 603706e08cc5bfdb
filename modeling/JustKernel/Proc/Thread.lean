import JustKernel.Int.Isr
import JustKernel.Proc.Sched

/-! `thread_create` of `proc/thread.c`. A new thread gets a page for its kernel stack and, in
ring 3, one of the process's heap for its own stack, and a frame at the top of the kernel
stack as if it had been interrupted at its entry point. Only some of the fields of the frame
are written; the others hold what the memory of the page held. The user part of the frame is
there in ring 3 only. -/

namespace JustKernel.Thread

open Memory Isr

/-- What `thread_create` gets from its process and from the allocators. -/
structure Creation where
  ring3 : Bool
  cr3 : BitVec 32
  entry : BitVec 32
  /-- `kmalloc_a(PAGE_SIZE)`. -/
  kernelPage : BitVec 32
  /-- `heap_malloc(proc->heap, PAGE_SIZE, 1)`. -/
  userPage : BitVec 32

def pageSize : BitVec 32 := 0x1000

/-- `sizeof(core_regs_base_t)`. -/
def sizeofBase : BitVec 32 := 60

/-- `sizeof(core_regs_user_t)`. -/
def sizeofUser : BitVec 32 := 8

/-- `DESC_SEG`. -/
def descSeg (n cpl : BitVec 32) : BitVec 32 := 8 * n ||| cpl

/-- Write the field at an offset of the frame. -/
def setField (regs : BitVec 32) (off : ℕ) (v : BitVec 32) (m : Mem) : Mem :=
  write32 m (regs + BitVec.ofNat 32 off).toNat v.toNat

def Creation.kernelStack (k : Creation) : BitVec 32 := k.kernelPage + pageSize

def Creation.userStack (k : Creation) : BitVec 32 := if k.ring3 then k.userPage + pageSize else 0

/-- `thread->regs`. -/
def Creation.regs (k : Creation) : BitVec 32 :=
  let regs := k.kernelStack - sizeofBase
  if k.ring3 then regs - sizeofUser else regs

def Creation.cs (k : Creation) : BitVec 32 := if k.ring3 then descSeg 3 3 else descSeg 1 0

def Creation.ds (k : Creation) : BitVec 32 := if k.ring3 then descSeg 4 3 else descSeg 2 0

/-- The fields that `thread_create` writes. -/
def Creation.frame (k : Creation) (m : Mem) : Mem :=
  let regs := k.regs
  let m := setField regs 52 k.cs m
  let m := setField regs 4 k.ds m
  let m := if k.ring3 then setField regs 60 k.userStack (setField regs 64 k.ds m) else m
  let m := setField regs 48 k.entry m
  let m := setField regs 0 k.cr3 m
  let m := setField regs 20 k.kernelStack m
  setField regs 56 0x202 m

def threadCreate (k : Creation) (m : Mem) : Sched.Thread × Mem :=
  (⟨k.regs.toNat, .stopped, -1, k.kernelStack.toNat, 0, 0, 0⟩, k.frame m)

section Frame

variable {k : Creation} {m : Mem} {regs v : BitVec 32} {a b : ℕ}

theorem toNat_field (hregs : regs.toNat + 68 ≤ 4294967296) (ha : a < 68) :
    (regs + BitVec.ofNat 32 a).toNat = regs.toNat + a := by
  rw [BitVec.toNat_add, BitVec.toNat_ofNat]
  omega

theorem read_setField_same (hregs : regs.toNat + 68 ≤ 4294967296) (ha : a < 68) :
    read32 (setField regs a v m) (regs.toNat + a) = v.toNat := by
  rw [setField, toNat_field hregs ha]
  exact read32_write32 _ _ _ v.isLt

theorem read_setField_other (hregs : regs.toNat + 68 ≤ 4294967296) (ha : a < 68) (hab : a + 4 ≤ b ∨ b + 4 ≤ a) :
    read32 (setField regs a v m) (regs.toNat + b) = read32 m (regs.toNat + b) := by
  rw [setField, toNat_field hregs ha]
  exact read32_write32_of_disjoint _ (by omega)

/-- Where the frame is. -/
theorem toNat_regs (hpage : k.kernelPage.toNat + 8192 ≤ 4294967296) :
    k.kernelStack.toNat = k.kernelPage.toNat + 4096 ∧
      k.regs.toNat + (if k.ring3 then 68 else 60) = k.kernelStack.toNat := by
  have hstack : k.kernelStack.toNat = k.kernelPage.toNat + 4096 := by
    rw [Creation.kernelStack, BitVec.toNat_add]
    simp only [pageSize, BitVec.reduceToNat]
    omega
  have hbase : (k.kernelStack - sizeofBase).toNat = k.kernelStack.toNat - 60 :=
    BitVec.toNat_sub_of_le (BitVec.le_def.mpr (by simp only [sizeofBase, BitVec.reduceToNat]; omega))
  refine ⟨hstack, ?_⟩
  unfold Creation.regs
  cases k.ring3 with
  | false =>
    simp only [Bool.false_eq_true, if_false, hbase]
    omega
  | true =>
    have huser : (k.kernelStack - sizeofBase - sizeofUser).toNat = k.kernelStack.toNat - 68 := by
      rw [BitVec.toNat_sub_of_le (BitVec.le_def.mpr (by
        simp only [sizeofUser, BitVec.reduceToNat]
        omega)), hbase]
      simp only [sizeofUser, BitVec.reduceToNat]
      omega
    simp only [if_true, huser]
    omega

/-- The fields of the frame that are written. -/
theorem read_frame (hregs : k.regs.toNat + 68 ≤ 4294967296) :
    read32 (k.frame m) (k.regs.toNat + 0) = k.cr3.toNat ∧ read32 (k.frame m) (k.regs.toNat + 4) = k.ds.toNat ∧
      read32 (k.frame m) (k.regs.toNat + 48) = k.entry.toNat ∧
      read32 (k.frame m) (k.regs.toNat + 52) = k.cs.toNat ∧
      read32 (k.frame m) (k.regs.toNat + 56) = (0x202 : BitVec 32).toNat ∧
      (k.ring3 = true → read32 (k.frame m) (k.regs.toNat + 60) = k.userStack.toNat ∧
        read32 (k.frame m) (k.regs.toNat + 64) = k.ds.toNat) := by
  unfold Creation.frame
  cases k.ring3 <;> simp (disch := omega) only [read_setField_same hregs, read_setField_other hregs, if_true,
    Bool.false_eq_true, if_false, and_self, imp_self, false_implies]

/-- The registers of a new thread. -/
structure Starts (k : Creation) (c : Cpu) : Prop where
  eip : c.eip = k.entry
  eflags : c.eflags = 0x202
  cr3 : c.cr3 = k.cr3
  cs : wide c.cs = k.cs
  ds : wide c.ds = k.ds
  esp : c.esp = if k.ring3 then k.userStack else k.kernelStack
  ss : k.ring3 = true → c.ss = c.ds
  outside : c.outside = k.ring3

/-- A new thread starts at its entry point, with interrupts on and a stack that is empty. -/
theorem threadCreate_framed (k : Creation) (m : Mem) (hpage : k.kernelPage.toNat + 8192 ≤ 4294967296) :
    ∃ c, Starts k c ∧ Framed (threadCreate k m).2 (threadCreate k m).1.regs c := by
  obtain ⟨hstack, hregs⟩ := toNat_regs hpage
  have hfit : k.regs.toNat + 68 ≤ 4294967296 := by split_ifs at hregs <;> omega
  obtain ⟨h0, h4, h48, h52, h56, huser⟩ := @read_frame k m hfit
  -- the fields that are not written
  generalize hmem : k.frame m = m' at *
  have hold : ∀ a, read32 m' a = (BitVec.ofNat 32 (read32 m' a)).toNat := by
    intro a
    have := read32_lt m' a
    rw [BitVec.toNat_ofNat]
    omega
  let field (n : ℕ) : BitVec 32 := BitVec.ofNat 32 (read32 m' (k.regs.toNat + n))
  have hcs : wide (k.cs.setWidth 16) = k.cs := by unfold Creation.cs; cases k.ring3 <;> decide
  have hds : wide (k.ds.setWidth 16) = k.ds := by unfold Creation.ds; cases k.ring3 <;> decide
  let c : Cpu := {
    eax := field 36, ebx := field 24, ecx := field 32, edx := field 28, esi := field 12, edi := field 8
    ebp := field 16, esp := if k.ring3 then k.userStack else k.kernelStack, eip := k.entry, eflags := 0x202
    cr3 := k.cr3, cs := k.cs.setWidth 16, ss := k.ds.setWidth 16, ds := k.ds.setWidth 16
    es := k.ds.setWidth 16, fs := 0, gs := 0 }
  have hv : c.v86Mode = false := by
    change (0x202 : BitVec 32).getLsbD 17 = false
    decide
  have ho : c.outside = k.ring3 := by
    rw [Cpu.outside, hv, Bool.false_or]
    change (plRing (k.cs.setWidth 16) != 0) = k.ring3
    unfold Creation.cs
    cases k.ring3 <;> decide
  refine ⟨c, ⟨rfl, rfl, rfl, hcs, hds, rfl, fun _ => rfl, ho⟩, ⟨⟨field 20, field 40, field 44, ?_⟩, ?_, ?_⟩⟩
  · change Laid (k.frame m) k.regs.toNat _
    rw [hmem]
    have hbase : ∀ ws, Laid m' (k.regs.toNat + 60) ws → Laid m' k.regs.toNat ([k.cr3, k.ds, field 8, field 12,
        field 16, field 20, field 24, field 28, field 32, field 36, field 40, field 44, k.entry, k.cs, 0x202] ++
          ws) := by
      intro ws hws
      simp only [List.cons_append, List.nil_append, Laid, Nat.add_assoc, Nat.reduceAdd]
      exact ⟨h0, h4, hold _, hold _, hold _, hold _, hold _, hold _, hold _, hold _, hold _, hold _, h48, h52, h56,
        hws⟩
    rw [frameWords, hv, ho]
    simp only [Bool.false_eq_true, if_false, List.append_nil]
    cases hr : k.ring3 with
    | false =>
      have hwords := hbase [] trivial
      rw [List.append_nil, ← hcs, ← hds] at hwords
      exact hwords
    | true =>
      obtain ⟨h60, h64⟩ := huser hr
      have hwords := hbase [k.userStack, k.ds] ⟨h60, h64, trivial⟩
      have hesp : c.esp = k.userStack := by
        change (if k.ring3 then k.userStack else k.kernelStack) = _
        rw [hr]
        rfl
      simp only [if_true]
      rw [hesp]
      rw [← hcs, ← hds] at hwords
      exact hwords
  · rw [frameSize, ho, hv]
    change k.regs.toNat + _ ≤ _
    split_ifs <;> omega
  · intro hin
    rw [ho] at hin
    rw [hin] at hregs
    change (if k.ring3 then k.userStack else k.kernelStack).toNat = k.regs.toNat + 60
    rw [hin]
    exact hregs.symm

/-- Only the frame is written. -/
theorem threadCreate_other {x : ℕ} (hpage : k.kernelPage.toNat + 8192 ≤ 4294967296)
    (hx : x < k.kernelPage.toNat ∨ k.kernelPage.toNat + 4096 ≤ x) : (threadCreate k m).2 x = m x := by
  obtain ⟨hstack, hregs⟩ := toNat_regs hpage
  have hfit : k.regs.toNat + 68 ≤ 4294967296 := by split_ifs at hregs <;> omega
  have hset : ∀ off, off + 4 ≤ (if k.ring3 then 68 else 60) → ∀ (v : BitVec 32) (m : Mem),
      setField k.regs off v m x = m x := by
    intro off hoff v m
    have hoff' : off < 68 := by split_ifs at hoff <;> omega
    rw [setField, toNat_field hfit hoff']
    exact store_apply_of_not_mem _ _ _ _ _ (by split_ifs at hoff hregs <;> omega)
  change k.frame m x = m x
  unfold Creation.frame
  cases hr : k.ring3 with
  | false =>
    simp only [hr, Bool.false_eq_true, if_false] at hset ⊢
    simp (disch := decide) only [hset]
  | true =>
    simp only [hr, if_true] at hset ⊢
    simp (disch := decide) only [hset]

/-- The memory after the creation of several threads. -/
def createAll (ks : List Creation) (m : Mem) : Mem := ks.foldl (fun m k => (threadCreate k m).2) m

/-- The pages of two kernel stacks. -/
def PagesApart (k k' : Creation) : Prop :=
  k.kernelPage.toNat + 4096 ≤ k'.kernelPage.toNat ∨ k'.kernelPage.toNat + 4096 ≤ k.kernelPage.toNat

theorem createAll_other {ks : List Creation} {x : ℕ} (hpage : ∀ k ∈ ks, k.kernelPage.toNat + 8192 ≤ 4294967296)
    (hx : ∀ k ∈ ks, x < k.kernelPage.toNat ∨ k.kernelPage.toNat + 4096 ≤ x) : createAll ks m x = m x := by
  induction ks generalizing m with
  | nil => rfl
  | cons k ks ih =>
    obtain ⟨hk, hpage⟩ := List.forall_mem_cons.mp hpage
    obtain ⟨hxk, hx⟩ := List.forall_mem_cons.mp hx
    exact (ih hpage hx).trans (threadCreate_other hk hxk)

/-- A frame on its stack, for a processor at the entry point. -/
structure Created (m : Mem) (k : Creation) (c : Cpu) : Prop where
  starts : Starts k c
  framed : Framed m k.regs.toNat c
  low : k.kernelPage.toNat ≤ k.regs.toNat
  high : k.regs.toNat + frameSize c ≤ k.kernelStack.toNat

theorem threadCreate_created (m : Mem) (hpage : k.kernelPage.toNat + 8192 ≤ 4294967296) :
    ∃ c, Created (threadCreate k m).2 k c := by
  obtain ⟨c, hstarts, hframed⟩ := threadCreate_framed k m hpage
  obtain ⟨hstack, hregs⟩ := toNat_regs hpage
  have hv : c.v86Mode = false := by
    rw [Cpu.v86Mode, hstarts.eflags]
    decide
  have hsize : frameSize c = if k.ring3 then 68 else 60 := by
    rw [frameSize, hstarts.outside, hv]
    split_ifs <;> simp_all
  refine ⟨c, hstarts, hframed, ?_, ?_⟩
  · split_ifs at hregs <;> omega
  · rw [hsize, hregs]

/-- All frames are there in the end. -/
theorem createAll_created {ks : List Creation} (m : Mem)
    (hpage : ∀ k ∈ ks, k.kernelPage.toNat + 8192 ≤ 4294967296) (hapart : ks.Pairwise PagesApart) :
    ∀ k ∈ ks, ∃ c, Created (createAll ks m) k c := by
  induction ks generalizing m with
  | nil => exact fun k hk => absurd hk List.not_mem_nil
  | cons k ks ih =>
    obtain ⟨hk, hpage⟩ := List.forall_mem_cons.mp hpage
    obtain ⟨hkks, hapart⟩ := List.pairwise_cons.mp hapart
    refine List.forall_mem_cons.mpr ⟨?_, ih _ hpage hapart⟩
    obtain ⟨c, hc⟩ := threadCreate_created (k := k) m hk
    obtain ⟨hstack, -⟩ := toNat_regs hk
    refine ⟨c, hc.starts, hc.framed.congr fun x hlo hhi => ?_, hc.low, hc.high⟩
    refine createAll_other hpage fun k' hk' => ?_
    have hlow := hc.low
    have hhigh := hc.high
    rcases hkks k' hk' with h | h <;> omega

end Frame

end JustKernel.Thread
