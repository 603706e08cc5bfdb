import JustKernel.Sys.Madt

/-! What `parse_madt` reads of an arbitrary table. The loop trusts the length in the header and
the size byte of every record: it stands still at a record of size 0, it reads the payload of a
known type whatever the size says, and a length below that of the fixed part makes the entry
area nearly as large as the address space. -/

namespace JustKernel.Madt

open AddressSpace
open Memory (Byte)

variable {m : Mem32} {madt : Addr} {e bytesForEntries : BitVec 32} {s s' : Apic}

/-- The length of the structure that a branch of the loop reads or stores. -/
def structLength (type : Byte) : ℕ :=
  if type = 0 then 6 else if type = 1 then 10 else if type = 2 then 8 else if type = 4 then 4
  else if type = 5 then 10 else 0

/-- How far the record at `e` reaches: over what its size byte says, and over the two bytes in
front with the structure behind them. -/
def extent (m : Mem32) (madt : Addr) (e : BitVec 32) : ℕ :=
  max (entrySize m madt e).toNat (2 + structLength (entryType m madt e))

/-- The loop ends, and every record it has read lies inside the table. -/
def Contained (m : Mem32) (madt : Addr) (s : Apic) : Prop :=
  ∃ fuel s', parseMadt m fuel (some madt) s = some (true, s') ∧
    ∀ e ∈ s'.visited, 44 + e.toNat + extent m madt e ≤ (headerLength m madt).toNat

/-- The size bytes from `e` on cut the first `n` bytes of the entry area into records that lie
inside it. -/
inductive Tiled (m : Mem32) (madt : Addr) (n : ℕ) : ℕ → Prop
  | done : Tiled m madt n n
  | record {e : ℕ} (hsize : 1 ≤ (entrySize m madt (BitVec.ofNat 32 e)).toNat)
      (hfits : e + extent m madt (BitVec.ofNat 32 e) ≤ n)
      (hrest : Tiled m madt n (e + (entrySize m madt (BitVec.ofNat 32 e)).toNat)) : Tiled m madt n e

theorem visit_visited (m : Mem32) (madt : Addr) (e : BitVec 32) (s : Apic) :
    (visit m madt e s).visited = s.visited ++ [e] := by
  unfold visit
  dsimp only
  split_ifs <;> rfl

/-- A record that has been read stays on the list. -/
theorem parseLoop_visited {fuel : ℕ} (h : parseLoop m madt bytesForEntries fuel e s = some s') :
    ∀ x ∈ s.visited, x ∈ s'.visited := by
  induction fuel generalizing e s with
  | zero => cases h
  | succ fuel ih =>
    intro x hx
    rw [parseLoop] at h
    split_ifs at h
    · refine ih h x ?_
      rw [visit_visited]
      exact List.mem_append_left _ hx
    · cases h
      exact hx

/-- A size that stays inside the entry area does not wrap the cursor around. -/
theorem nextEntry_toNat {size : Byte} (h : e.toNat + size.toNat ≤ bytesForEntries.toNat) :
    (nextEntry size e).toNat = e.toNat + size.toNat := by
  rw [nextEntry_eq]
  have := bytesForEntries.isLt
  have := size.isLt
  simp only [BitVec.toNat_add, BitVec.toNat_setWidth]
  omega

theorem parseLoop_size_zero (hsize : entrySize m madt e = 0) (hmore : e < bytesForEntries) (fuel : ℕ)
    (s : Apic) : parseLoop m madt bytesForEntries fuel e s = none := by
  induction fuel generalizing s with
  | zero => rfl
  | succ fuel ih =>
    have hstill : nextEntry 0 e = e := by
      rw [nextEntry_eq]
      exact BitVec.add_zero e
    rw [parseLoop, if_pos hmore, hsize, hstill, ih]

/-- A loop that ends has tiled the area: at a record of size 0 the rest of the loop starts where
the loop does. -/
theorem tiled_of_parseLoop {fuel : ℕ} (h : parseLoop m madt bytesForEntries fuel e s = some s')
    (hinside : ∀ x ∈ s'.visited, x.toNat + extent m madt x ≤ bytesForEntries.toNat)
    (he : e.toNat ≤ bytesForEntries.toNat) : Tiled m madt bytesForEntries.toNat e.toNat := by
  induction fuel generalizing e s with
  | zero => cases h
  | succ fuel ih =>
    rw [parseLoop] at h
    split_ifs at h with hmore
    · have hvisited : e ∈ s'.visited := by
        refine parseLoop_visited h e ?_
        rw [visit_visited]
        exact List.mem_append_right _ List.mem_cons_self
      have hfits := hinside e hvisited
      have hsize : e.toNat + (entrySize m madt e).toNat ≤ bytesForEntries.toNat :=
        (Nat.add_le_add_left (le_max_left _ _) _).trans hfits
      have hnext := nextEntry_toNat hsize
      have hrest := ih h (by rwa [hnext])
      rw [hnext] at hrest
      rcases Nat.eq_zero_or_pos (entrySize m madt e).toNat with hzero | hpos
      · rwa [hzero, Nat.add_zero] at hrest
      · refine .record ?_ ?_ ?_ <;> rwa [BitVec.ofNat_toNat, BitVec.setWidth_eq]
    · have hend : bytesForEntries.toNat ≤ e.toNat := Nat.le_of_not_lt hmore
      rw [he.antisymm hend]
      exact .done

/-- Over a tiled area the loop ends and reads the records of the tiling only. -/
theorem parseLoop_of_tiled {k : ℕ} (h : Tiled m madt bytesForEntries.toNat k) (s : Apic) :
    ∃ fuel s', parseLoop m madt bytesForEntries fuel (BitVec.ofNat 32 k) s = some s' ∧
      ∀ x ∈ s'.visited, x ∈ s.visited ∨ x.toNat + extent m madt x ≤ bytesForEntries.toNat := by
  have hlt := bytesForEntries.isLt
  induction h generalizing s with
  | done =>
    refine ⟨1, s, ?_, fun x hx => Or.inl hx⟩
    rw [BitVec.ofNat_toNat, BitVec.setWidth_eq, parseLoop, if_neg (BitVec.lt_irrefl _)]
  | @record k hsize hfits hrest ih =>
    have hk : (BitVec.ofNat 32 k).toNat = k := by
      rw [BitVec.toNat_ofNat]
      omega
    have hextent : (entrySize m madt (BitVec.ofNat 32 k)).toNat ≤ extent m madt (BitVec.ofNat 32 k) :=
      le_max_left _ _
    obtain ⟨fuel, s', hloop, hvisited⟩ := ih (visit m madt (BitVec.ofNat 32 k) s)
    refine ⟨fuel + 1, s', ?_, ?_⟩
    · have hmore : BitVec.ofNat 32 k < bytesForEntries := by
        rw [BitVec.lt_def, hk]
        omega
      have hnext : nextEntry (entrySize m madt (BitVec.ofNat 32 k)) (BitVec.ofNat 32 k) =
          BitVec.ofNat 32 (k + (entrySize m madt (BitVec.ofNat 32 k)).toNat) := by
        have hinside : (BitVec.ofNat 32 k).toNat + (entrySize m madt (BitVec.ofNat 32 k)).toNat ≤
            bytesForEntries.toNat := by omega
        apply BitVec.eq_of_toNat_eq
        rw [nextEntry_toNat hinside, hk, BitVec.toNat_ofNat]
        omega
      rw [parseLoop, if_pos hmore, hnext, hloop]
    · intro x hx
      rcases hvisited x hx with hx | hx
      · rw [visit_visited] at hx
        rcases List.mem_append.mp hx with hx | hx
        · exact Or.inl hx
        · rw [List.mem_singleton.mp hx, hk]
          exact Or.inr hfits
      · exact Or.inr hx

/-- A table shorter than its fixed part has an entry area of nearly the whole address space. -/
theorem bytesForEntries_toNat (h : 44 ≤ (headerLength m madt).toNat) :
    (headerLength m madt - (36 + 4 + 4)).toNat = (headerLength m madt).toNat - 44 := by
  have hlt := (headerLength m madt).isLt
  rw [BitVec.toNat_sub]
  simp only [BitVec.reduceAdd, BitVec.reduceToNat]
  omega

/-- The loop reads at least one record of a table that is too short for any. -/
theorem not_contained_of_short (h : (headerLength m madt).toNat < 44) : ¬Contained m madt s := by
  rintro ⟨fuel, s', hparse, hinside⟩
  obtain ⟨t, hloop, ht⟩ := Option.map_eq_some_iff.mp hparse
  obtain rfl : t = s' := (Prod.mk.inj ht).2
  cases fuel with
  | zero => cases hloop
  | succ fuel =>
    have hmore : (0 : BitVec 32) < headerLength m madt - (36 + 4 + 4) := by
      rw [BitVec.lt_def, BitVec.toNat_sub]
      simp only [BitVec.reduceAdd, BitVec.reduceToNat, BitVec.ofNat_eq_ofNat]
      omega
    rw [parseLoop, if_pos hmore] at hloop
    have hvisited : (0 : BitVec 32) ∈ t.visited := by
      refine parseLoop_visited hloop 0 ?_
      rw [visit_visited]
      exact List.mem_append_right _ List.mem_cons_self
    have := hinside 0 hvisited
    omega

/-- The loop ends inside the table exactly if the size bytes cut the entry area into records. -/
theorem parseMadt_contained_iff (m : Mem32) (madt : Addr) (s : Apic) :
    Contained m madt s ↔ 44 ≤ (headerLength m madt).toNat ∧
      Tiled m madt ((headerLength m madt).toNat - 44) 0 := by
  by_cases hlong : 44 ≤ (headerLength m madt).toNat
  · have hbytes := bytesForEntries_toNat hlong
    simp only [hlong, true_and]
    rw [← hbytes]
    constructor
    · rintro ⟨fuel, s', hparse, hinside⟩
      obtain ⟨t, hloop, ht⟩ := Option.map_eq_some_iff.mp hparse
      obtain rfl : t = s' := (Prod.mk.inj ht).2
      refine tiled_of_parseLoop hloop (fun x hx => ?_) (Nat.zero_le _)
      have := hinside x hx
      omega
    · intro h
      obtain ⟨fuel, s', hloop, hvisited⟩ := parseLoop_of_tiled h ⟨[], [], [], [], localApicAddr m madt, []⟩
      refine ⟨fuel, s', ?_, fun x hx => ?_⟩
      · rw [parseMadt, show (0 : BitVec 32) = BitVec.ofNat 32 0 from rfl, hloop]
        rfl
      · have := (hvisited x hx).resolve_left List.not_mem_nil
        omega
  · exact iff_of_false (not_contained_of_short (Nat.lt_of_not_le hlong)) fun h => hlong h.1

/-- A record of an unknown type and size 0 at the end of the table keeps the loop for ever. -/
theorem not_contained_size_zero :
    ¬Contained (tableOf [3, 0]) 0x1000 ⟨[], [], [], [], 0, []⟩ := by
  rintro ⟨fuel, s', hparse, -⟩
  obtain ⟨t, hloop, -⟩ := Option.map_eq_some_iff.mp hparse
  rw [parseLoop_size_zero (by decide) (by decide)] at hloop
  cases hloop

end JustKernel.Madt
