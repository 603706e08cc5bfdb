import JustKernel.Sys.Ioapic

/-! What `apic_configure` leaves in the redirection entries. The pass over one IOAPIC masks a
prefix of its entries and then writes the entries of the overrides; as no two IOAPICs share
registers or GSIs, an entry is decided by the pass over its own IOAPIC and by the pass over the
GSIs below 16. -/

namespace JustKernel.Apic

open AddressSpace

/-! ### The fields of an entry -/

def vector (e : BitVec 64) : ℕ := (e.setWidth 8).toNat

def masked (e : BitVec 64) : Bool := e.getLsbD 16

/-- The entry has the vector and the polarity and trigger bits. -/
def Holds (e : BitVec 64) (v : ℕ) (flags : BitVec 16) : Prop :=
  vector e = v ∧ e.getLsbD 13 = flags.getLsbD 1 ∧ e.getLsbD 15 = flags.getLsbD 3

theorem masked_mask (e : BitVec 64) : masked (e ||| 1#64 <<< 16) = true := by
  rw [masked, BitVec.getLsbD_or, show (1#64 <<< 16).getLsbD 16 = true by decide, Bool.or_true]

theorem vector_mask (e : BitVec 64) : vector (e ||| 1#64 <<< 16) = vector e := by
  rw [vector, BitVec.setWidth_or, show (1#64 <<< 16).setWidth 8 = 0#8 by decide, BitVec.or_zero, vector]

theorem holds_mask {e : BitVec 64} {v : ℕ} {flags : BitVec 16} :
    Holds (e ||| 1#64 <<< 16) v flags ↔ Holds e v flags := by
  rw [Holds, Holds, vector_mask, BitVec.getLsbD_or, BitVec.getLsbD_or,
    show (1#64 <<< 16).getLsbD 13 = false by decide,
    show (1#64 <<< 16).getLsbD 15 = false by decide, Bool.or_false, Bool.or_false]

theorem flag_iff (flags : BitVec 16) (i : ℕ) (hi : i < 16) :
    flags &&& 1#16 <<< i ≠ 0 ↔ flags.getLsbD i = true := by
  rw [← BitVec.twoPow_eq, BitVec.and_twoPow]
  have hpow : BitVec.twoPow 16 i ≠ 0#16 := fun h => by
    have hbit := congrArg (fun x => x.getLsbD i) h
    simp [hi] at hbit
  split_ifs with h
  · exact iff_of_true hpow h
  · exact iff_of_false (fun h => h rfl) h

theorem vector_bits (irq : BitVec 8) {i : ℕ} (hi : 9 ≤ i) : (irq.setWidth 64 + 32#64).getLsbD i = false := by
  rw [← BitVec.testBit_toNat]
  have hlt := irq.isLt
  apply Nat.testBit_lt_two_pow
  calc (irq.setWidth 64 + 32#64).toNat < 2 ^ 9 := by
        rw [BitVec.toNat_add, BitVec.toNat_setWidth, BitVec.toNat_ofNat]
        omega
    _ ≤ 2 ^ i := Nat.pow_le_pow_right (by omega) hi

theorem redirect_vector (irq : BitVec 8) (flags : BitVec 16) :
    (redirect irq flags 0).setWidth 8 = irq + 32#8 := by
  have hirq : (irq.setWidth 64 + 32#64).setWidth 8 = irq + 32#8 := by
    rw [BitVec.setWidth_add _ _ (by omega), BitVec.setWidth_setWidth_of_le _ (by omega), BitVec.setWidth_eq]
    rfl
  simp only [redirect, BitVec.setWidth_or, hirq]
  split_ifs <;> simp

theorem redirect_flags (irq : BitVec 8) (flags : BitVec 16) :
    (redirect irq flags 0).getLsbD 13 = flags.getLsbD 1 ∧ (redirect irq flags 0).getLsbD 15 = flags.getLsbD 3 := by
  simp only [redirect, BitVec.getLsbD_or, flag_iff flags 1 (by omega), flag_iff flags 3 (by omega)]
  rw [vector_bits irq (by omega : 9 ≤ 13), vector_bits irq (by omega : 9 ≤ 15)]
  cases h1 : flags.getLsbD 1 <;> cases h3 : flags.getLsbD 3 <;> decide

theorem vector_redirect (irq : BitVec 8) (flags : BitVec 16) :
    vector (redirect irq flags 0) = (irq.toNat + 32) % 256 := by
  rw [vector, redirect_vector, BitVec.toNat_add]
  rfl

/-- An override that is written for another one of the same GSI. -/
theorem holds_redirect_iff (irq irq' : BitVec 8) (flags flags' : BitVec 16) :
    Holds (redirect irq' flags' 0) (irq.toNat + 32) flags ↔
      irq.toNat < 224 ∧ irq' = irq ∧ flags'.getLsbD 1 = flags.getLsbD 1 ∧ flags'.getLsbD 3 = flags.getLsbD 3 := by
  obtain ⟨hpolarity, htrigger⟩ := redirect_flags irq' flags'
  rw [Holds, vector_redirect, hpolarity, htrigger, ← and_assoc (a := irq.toNat < 224)]
  refine and_congr_left fun _ => ?_
  rw [BitVec.toNat_eq]
  have hlt := irq.isLt
  have hlt' := irq'.isLt
  omega

/-! ### One IOAPIC -/

section Pass

variable {version : Addr → BitVec 32} {ioapic : Ioapic}

theorem lt_gsiMax_iff {t : Tables} {gsi : BitVec 32} :
    gsi < (apicGetGsiMax version t ioapic).setWidth 32 ↔ gsi.toNat < maxEntry version ioapic % 128 := by
  have hmax := apicGetGsiMax_toNat version t ioapic
  rw [BitVec.lt_def, BitVec.toNat_setWidth, Nat.mod_eq_of_lt (by omega), hmax]

/-- The loop compares the GSI with the number of the last entry. -/
theorem maskLoop_apply (n : ℕ) (gsi : BitVec 32) (t : Tables) (hbase : ioapic.gsiBase.toNat ≤ gsi.toNat)
    (hn : maxEntry version ioapic % 128 ≤ gsi.toNat + n) (addr : Addr) (k : ℕ) :
    maskLoop version ioapic n gsi t addr k =
      if addr = ioapic.ioapicAddr ∧ gsi.toNat ≤ ioapic.gsiBase.toNat + k ∧
          ioapic.gsiBase.toNat + k < maxEntry version ioapic % 128 then t addr k ||| 1#64 <<< 16
      else t addr k := by
  induction n generalizing gsi t with
  | zero => rw [maskLoop, if_neg (by omega)]
  | succ n ih =>
    rw [maskLoop]
    by_cases hlt : gsi.toNat < maxEntry version ioapic % 128
    · have hnext : (gsi + 1).toNat = gsi.toNat + 1 := by bv_omega
      have hentry : (gsi - ioapic.gsiBase).toNat = gsi.toNat - ioapic.gsiBase.toNat := BitVec.toNat_sub_of_le hbase
      rw [if_pos (lt_gsiMax_iff.mpr hlt), ih (gsi + 1) _ (by omega) (by omega), maskGsi_eq (by omega),
        setEntry_apply, hentry, hnext]
      by_cases haddr : addr = ioapic.ioapicAddr
      · rw [haddr]
        simp only [true_and]
        -- the entry of this round or another one
        by_cases hk : k = gsi.toNat - ioapic.gsiBase.toNat
        · rw [if_neg (by omega), if_pos hk, if_pos (by omega), hk]
        · rw [if_neg hk]
          exact if_congr (by omega) rfl rfl
      · simp [haddr]
    · rw [if_neg (lt_gsiMax_iff.not.mpr hlt), if_neg (by omega)]

/-- A redirection is the write of one entry. -/
theorem redirectGsi_apply {gsi : BitVec 32} (h : InRange version ioapic gsi.toNat) (irq : BitVec 8)
    (flags : BitVec 16) (apic : BitVec 8) (t : Tables) (addr : Addr) (k : ℕ) :
    redirectGsi (some ioapic) irq gsi flags apic t addr k =
      if addr = ioapic.ioapicAddr ∧ gsi.toNat = ioapic.gsiBase.toNat + k then redirect irq flags apic
      else t addr k := by
  obtain ⟨hentry, hlt⟩ := h.entry
  have hbase := h.1
  rw [redirectGsi, apicWriteRedirectionTable_eq hlt, setEntry_apply, hentry]
  exact if_congr (and_congr_right fun _ => by omega) rfl rfl

/-- The override writes the entry of the IOAPIC. -/
def Hits (version : Addr → BitVec 32) (ioapic : Ioapic) (k : ℕ) (iso : Iso) : Prop :=
  Reaches version ioapic iso.gsi.toNat ∧ iso.gsi.toNat = ioapic.gsiBase.toNat + k

theorem mapIso_hit {iso : Iso} {k : ℕ} (hhits : Hits version ioapic k iso) (s : Config) :
    (mapIso version ioapic iso s).tables ioapic.ioapicAddr k = redirect iso.irqSrc iso.flags 0 := by
  rw [mapIso, if_pos (covers_iff.mpr hhits.1)]
  dsimp only
  rw [redirectGsi_apply hhits.1.inRange, if_pos ⟨rfl, hhits.2⟩]

/-- Every other entry is as before. -/
theorem mapIso_other {iso : Iso} {addr : Addr} {k : ℕ}
    (h : ¬(addr = ioapic.ioapicAddr ∧ Hits version ioapic k iso)) (s : Config) :
    (mapIso version ioapic iso s).tables addr k = s.tables addr k := by
  rw [mapIso]
  by_cases hcovers : covers version s.tables ioapic iso.gsi = true
  · have hreaches := covers_iff.mp hcovers
    rw [if_pos hcovers]
    dsimp only
    rw [redirectGsi_apply hreaches.inRange, if_neg fun h' => h ⟨h'.1, hreaches, h'.2⟩]
  · rw [if_neg hcovers]

theorem mapIso_mapped (iso : Iso) (s : Config) {g : ℕ} (hg : g < 16) :
    (mapIso version ioapic iso s).mappedIrqs g = true ↔
      s.mappedIrqs g = true ∨ iso.gsi.toNat = g ∧ Reaches version ioapic g := by
  rw [mapIso]
  by_cases hcovers : covers version s.tables ioapic iso.gsi = true
  · have hreaches := covers_iff.mp hcovers
    rw [if_pos hcovers]
    by_cases hiso : iso.gsi.toNat = g
    · subst hiso
      have hlow : iso.gsi < 16 := hg
      simp only [if_pos hlow, Function.update_self, hreaches, and_self, or_true]
    · dsimp only
      split_ifs
      · simp [Function.update_of_ne (Ne.symm hiso), hiso]
      · simp [hiso]
  · rw [if_neg hcovers]
    have hnot : ¬(iso.gsi.toNat = g ∧ Reaches version ioapic g) := by
      rintro ⟨rfl, hreaches⟩
      exact hcovers (covers_iff.mpr hreaches)
    exact (or_iff_left hnot).symm

/-- The entry is that of an override that hits it, or is left alone. -/
def Routed (version : Addr → BitVec 32) (ioapic : Ioapic) (isos : List Iso) (k : ℕ) (e e' : BitVec 64) : Prop :=
  (∃ iso ∈ isos, Hits version ioapic k iso ∧ e' = redirect iso.irqSrc iso.flags 0) ∨
    (∀ iso ∈ isos, ¬Hits version ioapic k iso) ∧ e' = e

theorem isoLoop_routed (isos : List Iso) (s : Config) (k : ℕ) :
    Routed version ioapic isos k (s.tables ioapic.ioapicAddr k)
      ((isoLoop version ioapic isos s).tables ioapic.ioapicAddr k) := by
  induction isos generalizing s with
  | nil => exact Or.inr ⟨by simp, rfl⟩
  | cons iso isos ih =>
    rw [isoLoop]
    rcases ih (mapIso version ioapic iso s) with ⟨iso', hmem, hhits, he⟩ | ⟨hnone, he⟩
    · exact Or.inl ⟨iso', List.mem_cons_of_mem _ hmem, hhits, he⟩
    by_cases hhits : Hits version ioapic k iso
    · exact Or.inl ⟨iso, List.mem_cons_self, hhits, he.trans (mapIso_hit hhits s)⟩
    · exact Or.inr ⟨List.forall_mem_cons.mpr ⟨hhits, hnone⟩, he.trans (mapIso_other (fun h => hhits h.2) s)⟩

theorem isoLoop_other (isos : List Iso) (s : Config) {addr : Addr} (haddr : addr ≠ ioapic.ioapicAddr) (k : ℕ) :
    (isoLoop version ioapic isos s).tables addr k = s.tables addr k := by
  induction isos generalizing s with
  | nil => rfl
  | cons iso isos ih => rw [isoLoop, ih, mapIso_other fun h => haddr h.1]

theorem isoLoop_mapped (isos : List Iso) (s : Config) {g : ℕ} (hg : g < 16) :
    (isoLoop version ioapic isos s).mappedIrqs g = true ↔
      s.mappedIrqs g = true ∨ ∃ iso ∈ isos, iso.gsi.toNat = g ∧ Reaches version ioapic g := by
  induction isos generalizing s with
  | nil => simp [isoLoop]
  | cons iso isos ih => simp only [isoLoop, ih, mapIso_mapped iso s hg, or_assoc, List.mem_cons, exists_eq_or_imp]

/-- The entry of number `k`, masked or not, before the overrides. -/
def premask (version : Addr → BitVec 32) (ioapic : Ioapic) (k : ℕ) (e : BitVec 64) : BitVec 64 :=
  if ioapic.gsiBase.toNat + k < maxEntry version ioapic % 128 then e ||| 1#64 <<< 16 else e

theorem mapIoapic_routed (isos : List Iso) (s : Config) (k : ℕ) :
    Routed version ioapic isos k (premask version ioapic k (s.tables ioapic.ioapicAddr k))
      ((mapIoapic version isos ioapic s).tables ioapic.ioapicAddr k) := by
  have hloop := @isoLoop_routed version ioapic isos
    { s with tables := maskLoop version ioapic 128 ioapic.gsiBase s.tables } k
  dsimp only at hloop
  rw [maskLoop_apply 128 ioapic.gsiBase s.tables le_rfl (by omega)] at hloop
  simp only [true_and, Nat.le_add_right] at hloop
  exact hloop

theorem mapIoapic_other (isos : List Iso) (s : Config) {addr : Addr} (haddr : addr ≠ ioapic.ioapicAddr) (k : ℕ) :
    (mapIoapic version isos ioapic s).tables addr k = s.tables addr k := by
  rw [mapIoapic, isoLoop_other isos _ haddr]
  dsimp only
  rw [maskLoop_apply 128 ioapic.gsiBase s.tables le_rfl (by omega), if_neg fun h => haddr h.1]

/-! ### All IOAPICs -/

/-- Two IOAPICs have their own registers and their own GSIs. -/
def Apart (version : Addr → BitVec 32) (a b : Ioapic) : Prop :=
  a.ioapicAddr ≠ b.ioapicAddr ∧ ∀ g, ¬(InRange version a g ∧ InRange version b g)

instance : Std.Symm (Apart version) :=
  ⟨fun _ _ h => ⟨h.1.symm, fun g hg => h.2 g hg.symm⟩⟩

/-- The IOAPICs of a machine. -/
structure Ioapics (version : Addr → BitVec 32) where
  list : List Ioapic
  apart : list.Pairwise (Apart version)

theorem ioapicLoop_other (isos : List Iso) (list : List Ioapic) (s : Config) {addr : Addr}
    (haddr : ∀ a ∈ list, addr ≠ a.ioapicAddr) (k : ℕ) :
    (ioapicLoop version isos list s).tables addr k = s.tables addr k := by
  induction list generalizing s with
  | nil => rfl
  | cons a list ih =>
    rw [List.forall_mem_cons] at haddr
    rw [ioapicLoop, ih _ haddr.2, mapIoapic_other isos s haddr.1]

theorem ioapicLoop_routed (isos : List Iso) (list : List Ioapic) (s : Config)
    (hapart : list.Pairwise (Apart version)) (hmem : ioapic ∈ list) (k : ℕ) :
    Routed version ioapic isos k (premask version ioapic k (s.tables ioapic.ioapicAddr k))
      ((ioapicLoop version isos list s).tables ioapic.ioapicAddr k) := by
  induction list generalizing s with
  | nil => exact absurd hmem List.not_mem_nil
  | cons a list ih =>
    rw [List.pairwise_cons] at hapart
    rw [ioapicLoop]
    rcases List.mem_cons.mp hmem with rfl | hmem
    · rw [ioapicLoop_other isos list _ fun b hb => (hapart.1 b hb).1]
      exact mapIoapic_routed isos s k
    · have hloop := ih (mapIoapic version isos a s) hapart.2 hmem
      rwa [mapIoapic_other isos s (hapart.1 ioapic hmem).1.symm] at hloop

theorem ioapicLoop_mapped (isos : List Iso) (list : List Ioapic) (s : Config) {g : ℕ} (hg : g < 16) :
    (ioapicLoop version isos list s).mappedIrqs g = true ↔
      s.mappedIrqs g = true ∨ ∃ a ∈ list, ∃ iso ∈ isos, iso.gsi.toNat = g ∧ Reaches version a g := by
  induction list generalizing s with
  | nil => simp [ioapicLoop]
  | cons a list ih =>
    simp only [ioapicLoop, ih, mapIoapic, isoLoop_mapped isos _ hg, or_assoc, List.mem_cons, exists_eq_or_imp]

/-! ### The GSIs below 16 -/

theorem Ioapics.eq_of_addr (L : Ioapics version) {a b : Ioapic} (ha : a ∈ L.list) (hb : b ∈ L.list)
    (h : a.ioapicAddr = b.ioapicAddr) : a = b := by
  by_contra hne
  exact (L.apart.forall ha hb hne).1 h

theorem Ioapics.eq_of_gsi (L : Ioapics version) {a b : Ioapic} (ha : a ∈ L.list) (hb : b ∈ L.list) {g : ℕ}
    (hga : Reaches version a g) (hgb : Reaches version b g) : a = b := by
  by_contra hne
  exact (L.apart.forall ha hb hne).2 g ⟨hga.inRange, hgb.inRange⟩

/-- The loop keeps the last one that passes the test. -/
theorem foldl_last {α : Type} (p : α → Bool) (l : List α) (acc : Option α) :
    l.foldl (fun found a => if p a then some a else found) acc = (l.reverse.find? p).or acc := by
  induction l generalizing acc with
  | nil => rfl
  | cons a l ih =>
    rw [List.foldl_cons, ih, List.reverse_cons, List.find?_append, Option.or_assoc, List.find?_singleton]
    cases p a <;> rfl

/-- An IOAPIC that takes the GSI is the one that is found. -/
theorem apicFindValidIoapic_eq (L : Ioapics version) (t : Tables) {a : Ioapic} (ha : a ∈ L.list) {gsi : BitVec 32}
    (hreaches : Reaches version a gsi.toNat) : apicFindValidIoapic version t L.list gsi = some a := by
  rw [apicFindValidIoapic, foldl_last, Option.or_none]
  have hsome : (L.list.reverse.find? fun b => covers version t b gsi).isSome := by
    rw [List.find?_isSome]
    exact ⟨a, List.mem_reverse.mpr ha, covers_iff.mpr hreaches⟩
  obtain ⟨b, hb⟩ := Option.isSome_iff_exists.mp hsome
  have hmem := List.mem_reverse.mp (List.mem_of_find?_eq_some hb)
  have hcovers := List.find?_some hb
  rw [hb, L.eq_of_gsi ha hmem hreaches (covers_iff.mp hcovers)]

/-- The one that is found takes the GSI. -/
theorem reaches_of_apicFindValidIoapic {list : List Ioapic} {t : Tables} {a : Ioapic} {gsi : BitVec 32}
    (h : apicFindValidIoapic version t list gsi = some a) : a ∈ list ∧ Reaches version a gsi.toNat := by
  rw [apicFindValidIoapic, foldl_last, Option.or_none] at h
  have hcovers := List.find?_some h
  exact ⟨List.mem_reverse.mp (List.mem_of_find?_eq_some h), covers_iff.mp hcovers⟩

theorem redirectGsi_found (L : Ioapics version) (t t' : Tables) (irq : BitVec 8) (gsi : BitVec 32)
    (hmem : ioapic ∈ L.list) (k : ℕ) :
    redirectGsi (apicFindValidIoapic version t' L.list gsi) irq gsi 0 0 t ioapic.ioapicAddr k =
      if gsi.toNat = ioapic.gsiBase.toNat + k ∧ Reaches version ioapic gsi.toNat then redirect irq 0 0
      else t ioapic.ioapicAddr k := by
  cases hfound : apicFindValidIoapic version t' L.list gsi with
  | none =>
    rw [if_neg]
    · rfl
    rintro ⟨-, hreaches⟩
    rw [apicFindValidIoapic_eq L t' hmem hreaches] at hfound
    exact absurd hfound (Option.some_ne_none _)
  | some a =>
    obtain ⟨ha, hreaches⟩ := reaches_of_apicFindValidIoapic hfound
    rw [redirectGsi_apply hreaches.inRange]
    by_cases haddr : ioapic.ioapicAddr = a.ioapicAddr
    · obtain rfl := L.eq_of_addr hmem ha haddr
      simp only [true_and, hreaches, and_true]
    · rw [if_neg fun h => haddr h.1, if_neg]
      rintro ⟨-, hreaches'⟩
      exact haddr (congrArg _ (L.eq_of_gsi hmem ha hreaches' hreaches))

/-- The last loop gives the GSI of the entry its own vector. -/
def Identity (version : Addr → BitVec 32) (ioapic : Ioapic) (mappedIrqs : ℕ → Bool) (g : ℕ) : Prop :=
  mappedIrqs g = false ∧ Reaches version ioapic g

instance (mappedIrqs : ℕ → Bool) (g : ℕ) : Decidable (Identity version ioapic mappedIrqs g) :=
  inferInstanceAs (Decidable (_ ∧ _))

theorem mapGsi_apply (L : Ioapics version) (mappedIrqs : ℕ → Bool) {g : ℕ} (hg : g < 16) (t : Tables)
    (hmem : ioapic ∈ L.list) (k : ℕ) :
    mapGsi version L.list mappedIrqs g t ioapic.ioapicAddr k =
      if ioapic.gsiBase.toNat + k = g ∧ Identity version ioapic mappedIrqs (ioapic.gsiBase.toNat + k) then
        redirect (BitVec.ofNat 8 (ioapic.gsiBase.toNat + k)) 0 0
      else t ioapic.ioapicAddr k := by
  have hgsi : (BitVec.ofNat 32 g).toNat = g := by
    rw [BitVec.toNat_ofNat, Nat.mod_eq_of_lt (by omega)]
  rw [mapGsi]
  by_cases hmapped : mappedIrqs g = true
  · rw [if_pos hmapped, if_neg]
    rintro ⟨rfl, hfree, -⟩
    exact absurd (hfree.symm.trans hmapped) Bool.false_ne_true
  · rw [if_neg hmapped, redirectGsi_found L _ _ _ _ hmem, hgsi]
    by_cases hk : ioapic.gsiBase.toNat + k = g
    · simp [hk, hmapped, Identity]
    · rw [if_neg fun h => hk h.1.symm, if_neg fun h => hk h.1]

theorem identityLoop_apply (L : Ioapics version) (mappedIrqs : ℕ → Bool) (gsis : List ℕ)
    (hgsis : ∀ g ∈ gsis, g < 16) (t : Tables) (hmem : ioapic ∈ L.list) (k : ℕ) :
    identityLoop version L.list mappedIrqs gsis t ioapic.ioapicAddr k =
      if ioapic.gsiBase.toNat + k ∈ gsis ∧ Identity version ioapic mappedIrqs (ioapic.gsiBase.toNat + k) then
        redirect (BitVec.ofNat 8 (ioapic.gsiBase.toNat + k)) 0 0
      else t ioapic.ioapicAddr k := by
  induction gsis generalizing t with
  | nil => simp [identityLoop]
  | cons g gsis ih =>
    rw [List.forall_mem_cons] at hgsis
    rw [identityLoop, ih hgsis.2, mapGsi_apply L mappedIrqs hgsis.1 t hmem k, ← ite_or]
    refine if_congr ?_ rfl rfl
    rw [List.mem_cons, ← or_and_right, or_comm]

/-! ### The entries left -/

/-- No override has the GSI. -/
def Free (isos : List Iso) (g : ℕ) : Prop := ∀ iso ∈ isos, iso.gsi.toNat ≠ g

instance (isos : List Iso) (g : ℕ) : Decidable (Free isos g) := inferInstanceAs (Decidable (∀ iso ∈ isos, _ ≠ _))

/-- An entry is that of its GSI below 16, or what the pass over its IOAPIC has left. -/
theorem apicConfigure_entry (L : Ioapics version) (isos : List Iso) (t : Tables) (hmem : ioapic ∈ L.list) (k : ℕ) :
    ∃ e, Routed version ioapic isos k (premask version ioapic k (t ioapic.ioapicAddr k)) e ∧
      apicConfigure version L.list isos t ioapic.ioapicAddr k =
        if ioapic.gsiBase.toNat + k < 16 ∧ Free isos (ioapic.gsiBase.toNat + k) ∧
            Reaches version ioapic (ioapic.gsiBase.toNat + k) then
          redirect (BitVec.ofNat 8 (ioapic.gsiBase.toNat + k)) 0 0
        else e := by
  refine ⟨_, ioapicLoop_routed isos L.list ⟨t, fun _ => false⟩ L.apart hmem k, ?_⟩
  rw [apicConfigure]
  rw [identityLoop_apply L _ _ (fun g hg => List.mem_range.mp hg) _ hmem]
  refine if_congr ?_ rfl rfl
  rw [List.mem_range, Identity]
  refine and_congr_right fun hg => and_congr_left fun hreaches => ?_
  rw [← Bool.not_eq_true, ioapicLoop_mapped isos L.list _ hg]
  constructor
  · intro h iso hiso hgsi
    exact h (Or.inr ⟨ioapic, hmem, iso, hiso, hgsi, hreaches⟩)
  · rintro hfree (h | ⟨-, -, iso, hiso, hgsi, -⟩)
    · exact absurd h Bool.false_ne_true
    · exact hfree iso hiso hgsi

section Entry

variable {L : Ioapics version} {isos : List Iso} {t : Tables} {k : ℕ}

/-- The entry of a GSI of an override, where the IOAPIC takes the GSI. -/
theorem apicConfigure_override (hmem : ioapic ∈ L.list) {iso : Iso} (hiso : iso ∈ isos)
    (hgsi : iso.gsi.toNat = ioapic.gsiBase.toNat + k)
    (hreaches : Reaches version ioapic (ioapic.gsiBase.toNat + k)) :
    ∃ iso' ∈ isos, iso'.gsi = iso.gsi ∧
      apicConfigure version L.list isos t ioapic.ioapicAddr k = redirect iso'.irqSrc iso'.flags 0 := by
  obtain ⟨e, hrouted, hentry⟩ := apicConfigure_entry L isos t hmem k
  rw [if_neg fun h => h.2.1 iso hiso hgsi] at hentry
  rcases hrouted with ⟨iso', hiso', hhits, he⟩ | ⟨hnone, -⟩
  · exact ⟨iso', hiso', BitVec.eq_of_toNat_eq (hhits.2.trans hgsi.symm), hentry.trans he⟩
  · exact absurd ⟨hgsi ▸ hreaches, hgsi⟩ (hnone iso hiso)

/-- The entry of a GSI below 16 that no override has, where the IOAPIC takes the GSI. -/
theorem apicConfigure_identity (hmem : ioapic ∈ L.list) (hg : ioapic.gsiBase.toNat + k < 16)
    (hfree : Free isos (ioapic.gsiBase.toNat + k)) (hreaches : Reaches version ioapic (ioapic.gsiBase.toNat + k)) :
    apicConfigure version L.list isos t ioapic.ioapicAddr k =
      redirect (BitVec.ofNat 8 (ioapic.gsiBase.toNat + k)) 0 0 := by
  obtain ⟨e, -, hentry⟩ := apicConfigure_entry L isos t hmem k
  rwa [if_pos ⟨hg, hfree, hreaches⟩] at hentry

/-- Every other entry is only masked, if at all. -/
theorem apicConfigure_other (hmem : ioapic ∈ L.list)
    (h : (Free isos (ioapic.gsiBase.toNat + k) ∧ 16 ≤ ioapic.gsiBase.toNat + k) ∨
      ¬Reaches version ioapic (ioapic.gsiBase.toNat + k)) :
    apicConfigure version L.list isos t ioapic.ioapicAddr k =
      premask version ioapic k (t ioapic.ioapicAddr k) := by
  obtain ⟨e, hrouted, hentry⟩ := apicConfigure_entry L isos t hmem k
  rw [if_neg] at hentry
  · rcases hrouted with ⟨iso, hiso, hhits, -⟩ | ⟨-, he⟩
    · rcases h with ⟨hfree, -⟩ | hnot
      · exact absurd hhits.2 (hfree iso hiso)
      · exact absurd (hhits.2 ▸ hhits.1) hnot
    · exact hentry.trans he
  · rintro ⟨hlt, -, hreaches⟩
    rcases h with ⟨-, hle⟩ | hnot
    · omega
    · exact hnot hreaches

theorem masked_premask_iff (e : BitVec 64) :
    masked (premask version ioapic k e) = true ↔
      ioapic.gsiBase.toNat + k < maxEntry version ioapic % 128 ∨ masked e = true := by
  rw [premask]
  split_ifs with hlt
  · exact iff_of_true (masked_mask e) (Or.inl hlt)
  · exact (or_iff_right hlt).symm

theorem vector_premask (e : BitVec 64) : vector (premask version ioapic k e) = vector e := by
  rw [premask]
  split_ifs
  · exact vector_mask e
  · rfl

theorem holds_premask_iff {e : BitVec 64} {v : ℕ} {flags : BitVec 16} :
    Holds (premask version ioapic k e) v flags ↔ Holds e v flags := by
  rw [premask]
  split_ifs
  · exact holds_mask
  · rfl

/-- The entry of a GSI is as the overrides and the GSIs below 16 want it. -/
structure Correct (isos : List Iso) (g : ℕ) (e : BitVec 64) : Prop where
  masked : 16 ≤ g → Free isos g → masked e = true
  override : ∀ iso ∈ isos, iso.gsi.toNat = g → Holds e (iso.irqSrc.toNat + 32) iso.flags
  identity : g < 16 → Free isos g → vector e = g + 32

/-- The overrides agree in the source and in the polarity and trigger bits. -/
def SameRoute (iso iso' : Iso) : Prop :=
  iso'.irqSrc = iso.irqSrc ∧ iso'.flags.getLsbD 1 = iso.flags.getLsbD 1 ∧ iso'.flags.getLsbD 3 = iso.flags.getLsbD 3

/-- The code takes the entry, with what was in it, where it should be. -/
structure Routable (version : Addr → BitVec 32) (ioapic : Ioapic) (isos : List Iso) (k : ℕ) (e : BitVec 64) :
    Prop where
  masked : 16 ≤ ioapic.gsiBase.toNat + k → Free isos (ioapic.gsiBase.toNat + k) →
    ioapic.gsiBase.toNat + k < maxEntry version ioapic % 128 ∨ masked e = true
  override : ∀ iso ∈ isos, iso.gsi.toNat = ioapic.gsiBase.toNat + k →
    if Reaches version ioapic (ioapic.gsiBase.toNat + k) then
      iso.irqSrc.toNat < 224 ∧ ∀ iso' ∈ isos, iso'.gsi = iso.gsi → SameRoute iso iso'
    else Holds e (iso.irqSrc.toNat + 32) iso.flags
  identity : ioapic.gsiBase.toNat + k < 16 → Free isos (ioapic.gsiBase.toNat + k) →
    Reaches version ioapic (ioapic.gsiBase.toNat + k) ∨ vector e = ioapic.gsiBase.toNat + k + 32

theorem masked_iff (hmem : ioapic ∈ L.list) (hle : 16 ≤ ioapic.gsiBase.toNat + k)
    (hfree : Free isos (ioapic.gsiBase.toNat + k)) :
    masked (apicConfigure version L.list isos t ioapic.ioapicAddr k) = true ↔
      ioapic.gsiBase.toNat + k < maxEntry version ioapic % 128 ∨ masked (t ioapic.ioapicAddr k) = true := by
  rw [apicConfigure_other hmem (Or.inl ⟨hfree, hle⟩), masked_premask_iff]

theorem identity_iff (hmem : ioapic ∈ L.list) (hlt : ioapic.gsiBase.toNat + k < 16)
    (hfree : Free isos (ioapic.gsiBase.toNat + k)) :
    vector (apicConfigure version L.list isos t ioapic.ioapicAddr k) = ioapic.gsiBase.toNat + k + 32 ↔
      Reaches version ioapic (ioapic.gsiBase.toNat + k) ∨
        vector (t ioapic.ioapicAddr k) = ioapic.gsiBase.toNat + k + 32 := by
  by_cases hreaches : Reaches version ioapic (ioapic.gsiBase.toNat + k)
  · refine iff_of_true ?_ (Or.inl hreaches)
    rw [apicConfigure_identity hmem hlt hfree hreaches, vector_redirect, BitVec.toNat_ofNat]
    omega
  · rw [apicConfigure_other hmem (Or.inr hreaches), vector_premask, or_iff_right hreaches]

theorem override_iff (hmem : ioapic ∈ L.list) :
    (∀ iso ∈ isos, iso.gsi.toNat = ioapic.gsiBase.toNat + k →
        Holds (apicConfigure version L.list isos t ioapic.ioapicAddr k) (iso.irqSrc.toNat + 32) iso.flags) ↔
      ∀ iso ∈ isos, iso.gsi.toNat = ioapic.gsiBase.toNat + k →
        if Reaches version ioapic (ioapic.gsiBase.toNat + k) then
          iso.irqSrc.toNat < 224 ∧ ∀ iso' ∈ isos, iso'.gsi = iso.gsi → SameRoute iso iso'
        else Holds (t ioapic.ioapicAddr k) (iso.irqSrc.toNat + 32) iso.flags := by
  by_cases hreaches : Reaches version ioapic (ioapic.gsiBase.toNat + k)
  · simp only [if_pos hreaches]
    constructor
    · intro h iso hiso hgsi
      -- the entry is that of one of the overrides of the GSI; every one of them has its data
      obtain ⟨last, hlast, -, hentry⟩ := apicConfigure_override (t := t) hmem hiso hgsi hreaches
      rw [hentry] at h
      have hheld := (holds_redirect_iff ..).mp (h iso hiso hgsi)
      refine ⟨hheld.1, fun iso' hiso' hgsi' => ?_⟩
      have hheld' := (holds_redirect_iff ..).mp (h iso' hiso' (hgsi' ▸ hgsi))
      exact ⟨hheld'.2.1.symm.trans hheld.2.1, hheld'.2.2.1.symm.trans hheld.2.2.1,
        hheld'.2.2.2.symm.trans hheld.2.2.2⟩
    · intro h iso hiso hgsi
      obtain ⟨last, hlast, hgsi', hentry⟩ := apicConfigure_override (t := t) hmem hiso hgsi hreaches
      obtain ⟨hirq, hsame⟩ := h iso hiso hgsi
      rw [hentry, holds_redirect_iff]
      exact ⟨hirq, hsame last hlast hgsi'⟩
  · simp only [if_neg hreaches, apicConfigure_other hmem (Or.inr hreaches), holds_premask_iff]

/-- **Every entry of every IOAPIC is as it should be exactly where the code takes it there.** The
masking stops before entry number `maxEntry % 128 - gsiBase`, and the overrides and the GSIs below
16 reach no entry after number `maxEntry % 128`. -/
theorem apicConfigure_correct_iff (L : Ioapics version) (isos : List Iso) (t : Tables) :
    (∀ ioapic ∈ L.list, ∀ k ≤ maxEntry version ioapic,
        Correct isos (ioapic.gsiBase.toNat + k) (apicConfigure version L.list isos t ioapic.ioapicAddr k)) ↔
      ∀ ioapic ∈ L.list, ∀ k ≤ maxEntry version ioapic,
        Routable version ioapic isos k (t ioapic.ioapicAddr k) := by
  refine forall₂_congr fun ioapic hmem => forall₂_congr fun k _ => ?_
  constructor
  · intro h
    exact ⟨fun hle hfree => (masked_iff hmem hle hfree).mp (h.masked hle hfree), (override_iff hmem).mp h.override,
      fun hlt hfree => (identity_iff hmem hlt hfree).mp (h.identity hlt hfree)⟩
  · intro h
    exact ⟨fun hle hfree => (masked_iff hmem hle hfree).mpr (h.masked hle hfree), (override_iff hmem).mpr h.override,
      fun hlt hfree => (identity_iff hmem hlt hfree).mpr (h.identity hlt hfree)⟩

/-- One IOAPIC of 24 entries, the first of them for GSI 0. -/
def oneIoapic : Ioapics fun _ => 23 <<< 16 := ⟨[⟨0xFEC00000, 0⟩], List.pairwise_singleton _ _⟩

/-- The last entry is not masked, as the loop stops before it. -/
theorem not_correct_lastEntry :
    ¬∀ ioapic ∈ oneIoapic.list, ∀ k ≤ maxEntry (fun _ => 23 <<< 16) ioapic,
      Correct [] (ioapic.gsiBase.toNat + k)
        (apicConfigure (fun _ => 23 <<< 16) oneIoapic.list [] (fun _ _ => 0) ioapic.ioapicAddr k) := by
  intro h
  have hlast := (h ⟨0xFEC00000, 0⟩ List.mem_cons_self 23 (by decide)).masked (by decide) (by decide)
  rw [masked_iff (L := oneIoapic) List.mem_cons_self (by decide) (by decide)] at hlast
  exact absurd hlast (by decide)

end Entry

end Pass

end JustKernel.Apic
