import JustKernel.Drivers.EarlyScreen
import Mathlib.Logic.Function.Basic

/-! What a scroll leaves on the screen. The fill starts at the first of the last rows of the old
picture and goes on by `bpp` bytes, which is eight pixels, and only then is the picture copied
up, so that what was filled above the last rows of the new one is copied with it. The cursor of
the fill may wrap around before it has passed the end; a byte then is what it was filled with
last. It cannot where eight pixels still have addresses behind the framebuffer, and there the
scrolls that are right are counted by the sizes of the mode. -/

namespace JustKernel.Screen

open Memory (Byte)

variable {stack : ℕ → Byte} {mode : Mode} {bg : Color} {rows i p n : ℕ} {fb fb' : ℕ → Byte}

/-- A video mode in the sense of `vesa_video_mode_t`. -/
structure VideoMode (mode : Mode) : Prop where
  fbSize_eq : mode.fbSize = mode.height * mode.pitch
  fbSize_lt : mode.fbSize < 2 ^ 32
  bpp_pos : 0 < mode.bpp
  bpp_dvd : 8 ∣ mode.bpp
  bpp_lt : mode.bpp < 256

/-- What a scroll should do to any picture. -/
def ScrollsTo (stack : ℕ → Byte) (mode : Mode) (rows : ℕ) (bg : Color) : Prop :=
  ∀ fb : ℕ → Byte, ∃ fb', vesaScroll stack mode rows bg fb = some fb' ∧
    (∀ i < mode.fbSize - rows * mode.pitch, fb' i = fb (i + rows * mode.pitch)) ∧
    ∀ y x j, mode.height - rows ≤ y → y < mode.height → x < mode.width →
      j < (entryBytes stack mode bg).length →
      fb' (y * mode.pitch + x * (mode.bpp / 8) + j) = (entryBytes stack mode bg).getD j 0

/-! ### Where the fill writes -/

/-- The cursor of a fill from `i` on after `k` pixels. -/
def fillStart (mode : Mode) (i k : ℕ) : ℕ := (i + k * mode.bpp) % 2 ^ 32

/-- The fill ends after `n` pixels. -/
def FillStops (mode : Mode) (i n : ℕ) : Prop :=
  (∀ k < n, fillStart mode i k < mode.fbSize) ∧ mode.fbSize ≤ fillStart mode i n

/-- A pixel at `start` has its byte `j` at `p`. -/
def Covers (stack : ℕ → Byte) (mode : Mode) (bg : Color) (start p j : ℕ) : Prop :=
  j < (entryBytes stack mode bg).length ∧ (start + j) % 2 ^ 32 = p

/-- One of the first `n` pixels covers `p`. -/
def Written (stack : ℕ → Byte) (mode : Mode) (bg : Color) (i n p : ℕ) : Prop :=
  ∃ k < n, ∃ j, Covers stack mode bg (fillStart mode i k) p j

/-- The last of the first `n` pixels to cover `p` has its byte `j` there. -/
def LastWritten (stack : ℕ → Byte) (mode : Mode) (bg : Color) (i n p j : ℕ) : Prop :=
  ∃ k < n, Covers stack mode bg (fillStart mode i k) p j ∧
    ∀ k', k < k' → k' < n → ∀ j', ¬Covers stack mode bg (fillStart mode i k') p j'

/-- No byte of the old picture that is to be copied is filled before. -/
def Untouched (stack : ℕ → Byte) (mode : Mode) (rows : ℕ) (bg : Color) (n : ℕ) : Prop :=
  ∀ p, rows * mode.pitch ≤ p → p < mode.fbSize →
    ¬Written stack mode bg (mode.fbSize - rows * mode.pitch) n p

/-- Every byte of the last rows is filled, at last with the byte of the colour that belongs there. -/
def Covered (stack : ℕ → Byte) (mode : Mode) (rows : ℕ) (bg : Color) (n : ℕ) : Prop :=
  ∀ y x j, mode.height - rows ≤ y → y < mode.height → x < mode.width →
    j < (entryBytes stack mode bg).length →
    ∃ j', LastWritten stack mode bg (mode.fbSize - rows * mode.pitch) n
        (y * mode.pitch + x * (mode.bpp / 8) + j) j' ∧
      (entryBytes stack mode bg).getD j' 0 = (entryBytes stack mode bg).getD j 0

/-! ### The fill -/

/-- The number of bytes of a pixel. -/
def pixelBytes (mode : Mode) : ℕ :=
  match mode.fbType with
  | .text => 2
  | .graphic => mode.bpp / 8

theorem length_entryBytes (stack : ℕ → Byte) (mode : Mode) (bg : Color) :
    (entryBytes stack mode bg).length = pixelBytes mode := by
  unfold entryBytes pixelBytes
  cases mode.fbType <;> simp

theorem pixelBytes_pos (h : VideoMode mode) : 0 < pixelBytes mode := by
  obtain ⟨m, hm⟩ := h.bpp_dvd
  have hpos := h.bpp_pos
  unfold pixelBytes
  split <;> omega

/-- Two pixels take up no more than a step of the fill. -/
theorem pixelBytes_le (h : VideoMode mode) :
    mode.bpp / 8 + pixelBytes mode ≤ mode.bpp ∧ 2 * pixelBytes mode ≤ mode.bpp := by
  obtain ⟨m, hm⟩ := h.bpp_dvd
  have hpos := h.bpp_pos
  unfold pixelBytes
  split <;> omega

theorem entryBytes_length_le (stack : ℕ → Byte) (bg : Color) (h : VideoMode mode) :
    (entryBytes stack mode bg).length ≤ 2 ^ 32 := by
  obtain ⟨-, hlen⟩ := pixelBytes_le h
  have hlt := h.bpp_lt
  rw [length_entryBytes]
  omega

theorem putBytes_of_not {bytes : List Byte} (h : ∀ j < bytes.length, (i + j) % 2 ^ 32 ≠ p) :
    putBytes fb i bytes p = fb p := by
  induction bytes generalizing fb i with
  | nil => rfl
  | cons b bytes ih =>
    have h0 := h 0 (Nat.succ_pos _)
    rw [putBytes, ih fun j hj => by rw [Nat.add_assoc, Nat.add_comm 1]; exact h (j + 1) (Nat.succ_lt_succ hj)]
    exact Function.update_of_ne (Ne.symm h0) _ _

theorem putBytes_of_covers {bytes : List Byte} (hlen : bytes.length ≤ 2 ^ 32) {j : ℕ} (hj : j < bytes.length)
    (hp : (i + j) % 2 ^ 32 = p) : putBytes fb i bytes p = bytes.getD j 0 := by
  induction bytes generalizing fb i j with
  | nil => exact absurd hj (Nat.not_lt_zero j)
  | cons b bytes ih =>
    rw [List.length_cons] at hlen hj
    rw [putBytes]
    cases j with
    | zero =>
      rw [putBytes_of_not fun k hk => by omega, ← hp]
      exact Function.update_self _ _ _
    | succ j => exact ih (by omega) (by omega) (by rw [← hp, Nat.add_assoc, Nat.add_comm 1])

/-- The framebuffer after `n` pixels. -/
def fillTimes (stack : ℕ → Byte) (mode : Mode) (bg : Color) (i : ℕ) (fb : ℕ → Byte) : ℕ → ℕ → Byte
  | 0 => fb
  | n + 1 => vesaColor2entry stack mode (fillTimes stack mode bg i fb n) (fillStart mode i n) bg

theorem fillTimes_of_not (h : ¬Written stack mode bg i n p) : fillTimes stack mode bg i fb n p = fb p := by
  induction n with
  | zero => rfl
  | succ n ih =>
    rw [fillTimes, vesaColor2entry, putBytes_of_not fun j hj hp => h ⟨n, Nat.lt_succ_self n, j, hj, hp⟩]
    exact ih fun ⟨k, hk, hj⟩ => h ⟨k, Nat.lt_succ_of_lt hk, hj⟩

theorem fillTimes_of_last (hmode : VideoMode mode) {j : ℕ} (h : LastWritten stack mode bg i n p j) :
    fillTimes stack mode bg i fb n p = (entryBytes stack mode bg).getD j 0 := by
  have hlen := entryBytes_length_le stack bg hmode
  induction n with
  | zero =>
    obtain ⟨k, hk, -⟩ := h
    exact absurd hk (Nat.not_lt_zero k)
  | succ n ih =>
    obtain ⟨k, hk, hcovers, hlast⟩ := h
    rw [fillTimes, vesaColor2entry]
    rcases Nat.lt_succ_iff_lt_or_eq.mp hk with hlt | rfl
    · have hnot := hlast n hlt (Nat.lt_succ_self n)
      rw [putBytes_of_not fun j' hj' hp => hnot j' ⟨hj', hp⟩]
      exact ih ⟨k, hlt, hcovers, fun k' h1 h2 => hlast k' h1 (Nat.lt_succ_of_lt h2)⟩
    · exact putBytes_of_covers hlen hcovers.1 hcovers.2

theorem exists_lastWritten (h : Written stack mode bg i n p) : ∃ j, LastWritten stack mode bg i n p j := by
  induction n with
  | zero =>
    obtain ⟨k, hk, -⟩ := h
    exact absurd hk (Nat.not_lt_zero k)
  | succ n ih =>
    by_cases hn : ∃ j, Covers stack mode bg (fillStart mode i n) p j
    · obtain ⟨j, hj⟩ := hn
      exact ⟨j, n, Nat.lt_succ_self n, hj, fun k' h1 h2 => by omega⟩
    · push Not at hn
      obtain ⟨k, hk, j, hj⟩ := h
      have hlt : k < n := by
        rcases Nat.lt_succ_iff_lt_or_eq.mp hk with hlt | rfl
        · exact hlt
        · exact absurd hj (hn j)
      obtain ⟨j, k, hk, hcovers, hlast⟩ := ih ⟨k, hlt, j, hj⟩
      refine ⟨j, k, Nat.lt_succ_of_lt hk, hcovers, fun k' h1 h2 => ?_⟩
      rcases Nat.lt_succ_iff_lt_or_eq.mp h2 with h2 | rfl
      · exact hlast k' h1 h2
      · exact hn

theorem fillStart_succ (mode : Mode) (i k : ℕ) :
    (fillStart mode i k + mode.bpp) % 2 ^ 32 = fillStart mode i (k + 1) := by
  rw [fillStart, fillStart, Nat.mod_add_mod, Nat.add_assoc, Nat.succ_mul]

/-- The loop at the cursor after `k` pixels, if the fill stops within its fuel. -/
theorem fillLoop_of_stops (stack : ℕ → Byte) (bg : Color) (fb : ℕ → Byte) {fuel k : ℕ}
    (h : FillStops mode i n) (hk : k ≤ n) (hfuel : n < k + fuel) :
    fillLoop stack mode bg fuel (fillStart mode i k) (fillTimes stack mode bg i fb k) =
      some (fillTimes stack mode bg i fb n) := by
  induction fuel generalizing k with
  | zero => omega
  | succ fuel ih =>
    rw [fillLoop]
    rcases Nat.lt_or_eq_of_le hk with hlt | rfl
    · rw [if_pos (h.1 k hlt), fillStart_succ]
      exact ih hlt (by omega)
    · rw [if_neg (Nat.not_lt.mpr h.2)]

theorem stops_of_fillLoop {fuel k : ℕ} (hbefore : ∀ j < k, fillStart mode i j < mode.fbSize)
    (h : fillLoop stack mode bg fuel (fillStart mode i k) fb = some fb') : ∃ n, FillStops mode i n := by
  induction fuel generalizing k fb with
  | zero => cases h
  | succ fuel ih =>
    rw [fillLoop] at h
    split_ifs at h with hmore
    · rw [fillStart_succ] at h
      refine ih (fun j hj => ?_) h
      rcases Nat.lt_succ_iff_lt_or_eq.mp hj with hj | rfl
      · exact hbefore j hj
      · exact hmore
    · exact ⟨k, hbefore, Nat.le_of_not_lt hmore⟩

/-- The cursor comes back to its start after `2 ^ 32` pixels, so that a fill that stops does so
before. -/
theorem FillStops.lt (h : FillStops mode i n) : n < 2 ^ 32 := by
  by_contra hge
  have hback : fillStart mode i (n - 2 ^ 32) = fillStart mode i n := by
    obtain ⟨d, rfl⟩ := Nat.exists_eq_add_of_le (Nat.le_of_not_lt hge)
    rw [Nat.add_sub_cancel_left, fillStart, fillStart, Nat.add_mul, Nat.add_left_comm i,
      Nat.mul_add_mod]
  have := h.1 (n - 2 ^ 32) (by omega)
  rw [hback] at this
  exact absurd h.2 (Nat.not_le.mpr this)

theorem FillStops.unique {m : ℕ} (hn : FillStops mode i n) (hm : FillStops mode i m) : n = m := by
  rcases Nat.lt_trichotomy n m with hlt | heq | hgt
  · exact absurd (hm.1 n hlt) (Nat.not_lt.mpr hn.2)
  · exact heq
  · exact absurd (hn.1 m hgt) (Nat.not_lt.mpr hm.2)

/-! ### The copy -/

/-- A copy to a lower place, byte by byte from the start, copies every byte as it was. -/
theorem copyDown_apply {src n : ℕ} (hsrc : 0 < src) (hend : src + n ≤ 2 ^ 32) (fb : ℕ → Byte) (p : ℕ) :
    copyDown src fb n p = if p < n then fb (src + p) else fb p := by
  induction n generalizing p with
  | zero => rfl
  | succ n ih =>
    have hread : copyDown src fb n ((src + n) % 2 ^ 32) = fb (src + n) := by
      rw [Nat.mod_eq_of_lt (by omega), ih (by omega), if_neg (by omega)]
    rw [copyDown, hread]
    rcases Nat.lt_trichotomy p n with hlt | rfl | hgt
    · rw [Function.update_of_ne hlt.ne, ih (by omega), if_pos hlt, if_pos (by omega)]
    · rw [Function.update_self, if_pos (by omega)]
    · rw [Function.update_of_ne hgt.ne', ih (by omega), if_neg (by omega), if_neg (by omega)]

theorem copyDown_zero (fb : ℕ → Byte) {n : ℕ} (hn : n ≤ 2 ^ 32) : copyDown 0 fb n = fb := by
  induction n with
  | zero => rfl
  | succ n ih =>
    rw [copyDown, ih (by omega), Nat.zero_add, Nat.mod_eq_of_lt (by omega), Function.update_eq_self]

/-! ### The scroll -/

theorem rows_le (h : VideoMode mode) (hrows : rows ≤ mode.height) : rows * mode.pitch ≤ mode.fbSize := by
  rw [h.fbSize_eq]
  exact Nat.mul_le_mul_right _ hrows

/-- A scroll in arithmetic that does not wrap. -/
theorem vesaScroll_run (h : VideoMode mode) (hrows : rows ≤ mode.height) :
    vesaScroll stack mode rows bg fb =
      (fillLoop stack mode bg fillFuel (mode.fbSize - rows * mode.pitch) fb).map fun fb =>
        copyDown (rows * mode.pitch) fb (mode.fbSize - rows * mode.pitch) := by
  have hlt := h.fbSize_lt
  have hle := rows_le h hrows
  have hshift : rows * mode.pitch % 2 ^ 32 = rows * mode.pitch := Nat.mod_eq_of_lt (by omega)
  have hdelta : (mode.fbSize + 2 ^ 32 - rows * mode.pitch) % 2 ^ 32 = mode.fbSize - rows * mode.pitch := by omega
  rw [vesaScroll, hshift, hdelta]

theorem fillStart_zero (h : VideoMode mode) (rows : ℕ) :
    fillStart mode (mode.fbSize - rows * mode.pitch) 0 = mode.fbSize - rows * mode.pitch := by
  have := h.fbSize_lt
  rw [fillStart, Nat.zero_mul, Nat.add_zero]
  exact Nat.mod_eq_of_lt (by omega)

/-- The picture after a scroll whose fill stops after `n` pixels. -/
theorem vesaScroll_eq (stack : ℕ → Byte) (bg : Color) (h : VideoMode mode) (hrows : rows ≤ mode.height)
    (hstops : FillStops mode (mode.fbSize - rows * mode.pitch) n) (fb : ℕ → Byte) :
    ∃ fb', vesaScroll stack mode rows bg fb = some fb' ∧ ∀ p, fb' p =
      if p < mode.fbSize - rows * mode.pitch then
        fillTimes stack mode bg (mode.fbSize - rows * mode.pitch) fb n (p + rows * mode.pitch)
      else fillTimes stack mode bg (mode.fbSize - rows * mode.pitch) fb n p := by
  have hlt := h.fbSize_lt
  have hle := rows_le h hrows
  have hfill : fillLoop stack mode bg fillFuel (mode.fbSize - rows * mode.pitch) fb =
      some (fillTimes stack mode bg (mode.fbSize - rows * mode.pitch) fb n) := by
    have hloop := fillLoop_of_stops stack bg fb hstops (Nat.zero_le n)
      (show n < 0 + fillFuel by rw [Nat.zero_add]; exact hstops.lt)
    rwa [fillStart_zero h] at hloop
  refine ⟨copyDown (rows * mode.pitch) (fillTimes stack mode bg (mode.fbSize - rows * mode.pitch) fb n)
    (mode.fbSize - rows * mode.pitch), by rw [vesaScroll_run h hrows, hfill]; rfl, fun p => ?_⟩
  rcases Nat.eq_zero_or_pos (rows * mode.pitch) with hzero | hpos
  · rw [hzero, copyDown_zero _ (by omega)]
    simp
  · rw [copyDown_apply hpos (by omega), Nat.add_comm]

/-- A scroll whose fill stops is right exactly if the fill leaves the picture that is copied and
colours the last rows. -/
theorem scrollsTo_iff_fill (stack : ℕ → Byte) (bg : Color) (h : VideoMode mode) (hrows : rows ≤ mode.height)
    (hstops : FillStops mode (mode.fbSize - rows * mode.pitch) n) :
    ScrollsTo stack mode rows bg ↔ ∀ fb : ℕ → Byte,
      (∀ i < mode.fbSize - rows * mode.pitch,
        fillTimes stack mode bg (mode.fbSize - rows * mode.pitch) fb n (i + rows * mode.pitch) =
          fb (i + rows * mode.pitch)) ∧
      ∀ y x j, mode.height - rows ≤ y → y < mode.height → x < mode.width →
        j < (entryBytes stack mode bg).length →
        fillTimes stack mode bg (mode.fbSize - rows * mode.pitch) fb n
          (y * mode.pitch + x * (mode.bpp / 8) + j) = (entryBytes stack mode bg).getD j 0 := by
  refine forall_congr' fun fb => ?_
  obtain ⟨fb', hrun, hpicture⟩ := vesaScroll_eq stack bg h hrows hstops fb
  have hhigh : ∀ y x j, mode.height - rows ≤ y →
      ¬y * mode.pitch + x * (mode.bpp / 8) + j < mode.fbSize - rows * mode.pitch := by
    intro y x j hy
    have hrow : mode.fbSize - rows * mode.pitch ≤ y * mode.pitch := by
      rw [h.fbSize_eq, ← Nat.sub_mul]
      exact Nat.mul_le_mul_right _ hy
    omega
  constructor
  · rintro ⟨fb'', hrun', hcopied, hrow⟩
    obtain rfl := Option.some.inj (hrun.symm.trans hrun')
    refine ⟨fun i hi => ?_, fun y x j hy hheight hx hj => ?_⟩
    · rw [← hcopied i hi, hpicture, if_pos hi]
    · rw [← hrow y x j hy hheight hx hj, hpicture, if_neg (hhigh y x j hy)]
  · rintro ⟨hcopied, hrow⟩
    refine ⟨fb', hrun, fun i hi => ?_, fun y x j hy hheight hx hj => ?_⟩
    · rw [hpicture, if_pos hi, hcopied i hi]
    · rw [hpicture, if_neg (hhigh y x j hy), hrow y x j hy hheight hx hj]

theorem ScrollsTo.stops (h : VideoMode mode) (hrows : rows ≤ mode.height) (hscroll : ScrollsTo stack mode rows bg) :
    ∃ n, FillStops mode (mode.fbSize - rows * mode.pitch) n := by
  obtain ⟨fb', hrun, -⟩ := hscroll fun _ => 0
  rw [vesaScroll_run h hrows] at hrun
  obtain ⟨fb'', hloop, -⟩ := Option.map_eq_some_iff.mp hrun
  rw [← fillStart_zero h] at hloop
  exact stops_of_fillLoop (fun j hj => absurd hj (Nat.not_lt_zero j)) hloop

/-- The fill stops without a byte of the picture, and with every byte of the last rows. -/
def Fills (stack : ℕ → Byte) (mode : Mode) (rows : ℕ) (bg : Color) : Prop :=
  ∃ n, FillStops mode (mode.fbSize - rows * mode.pitch) n ∧ Untouched stack mode rows bg n ∧
    Covered stack mode rows bg n

theorem scrollsTo_iff_fills (stack : ℕ → Byte) (bg : Color) (h : VideoMode mode) (hrows : rows ≤ mode.height) :
    ScrollsTo stack mode rows bg ↔ Fills stack mode rows bg := by
  constructor
  · intro hscroll
    obtain ⟨n, hstops⟩ := hscroll.stops h hrows
    have hfill := (scrollsTo_iff_fill stack bg h hrows hstops).mp hscroll
    -- a byte that the fill has the last word on betrays itself in a picture of other bytes
    refine ⟨n, hstops, fun p hp hend hwritten => ?_, fun y x j hy hheight hx hj => ?_⟩
    · obtain ⟨j, hlast⟩ := exists_lastWritten hwritten
      obtain ⟨hcopied, -⟩ := hfill fun _ => (entryBytes stack mode bg).getD j 0 + 1
      have hbyte := hcopied (p - rows * mode.pitch) (by omega)
      rw [Nat.sub_add_cancel hp, fillTimes_of_last h hlast] at hbyte
      exact absurd hbyte (by bv_omega)
    · obtain ⟨-, hrow⟩ := hfill fun _ => (entryBytes stack mode bg).getD j 0 + 1
      have hbyte := hrow y x j hy hheight hx hj
      by_cases hwritten : Written stack mode bg (mode.fbSize - rows * mode.pitch) n
          (y * mode.pitch + x * (mode.bpp / 8) + j)
      · obtain ⟨j', hlast⟩ := exists_lastWritten hwritten
        exact ⟨j', hlast, (fillTimes_of_last h hlast).symm.trans hbyte⟩
      · rw [fillTimes_of_not hwritten] at hbyte
        exact absurd hbyte (by bv_omega)
  · rintro ⟨n, hstops, huntouched, hcovered⟩
    refine (scrollsTo_iff_fill stack bg h hrows hstops).mpr fun fb =>
      ⟨fun i hi => ?_, fun y x j hy hheight hx hj => ?_⟩
    · exact fillTimes_of_not (huntouched _ (Nat.le_add_left _ _) (by omega))
    · obtain ⟨j', hlast, hbyte⟩ := hcovered y x j hy hheight hx hj
      rw [fillTimes_of_last h hlast, hbyte]

theorem fills_zero (h : VideoMode mode) : Fills stack mode 0 bg := by
  refine ⟨0, ⟨fun k hk => absurd hk (Nat.not_lt_zero k), ?_⟩, ?_, fun y x j hy hheight => by omega⟩
  · rw [fillStart_zero h]
    omega
  · rintro p - - ⟨k, hk, -⟩
    exact absurd hk (Nat.not_lt_zero k)

/-- Some of the last rows are copied up as well if there are any others, and they are filled. -/
theorem not_fills_between (h : VideoMode mode) (hrows : 0 < rows) (hlt : rows < mode.height)
    (hwidth : 0 < mode.width) : ¬Fills stack mode rows bg := by
  rintro ⟨n, hstops, huntouched, hcovered⟩
  have hlen : 0 < (entryBytes stack mode bg).length := by
    rw [length_entryBytes]
    exact pixelBytes_pos h
  obtain ⟨j, ⟨k, hk, hcovers, -⟩, -⟩ := hcovered (mode.height - 1) 0 0 (by omega) (by omega) hwidth hlen
  have hp : (mode.height - 1) * mode.pitch + 0 * (mode.bpp / 8) + 0 = (mode.height - 1) * mode.pitch := by omega
  rw [hp] at hcovers
  have hsize : (mode.height - 1) * mode.pitch + mode.pitch = mode.fbSize := by
    rw [h.fbSize_eq, ← Nat.succ_mul]
    congr 1
    omega
  have hpitch : 0 < mode.pitch := by
    have hmore := hstops.1 k hk
    rw [h.fbSize_eq] at hmore
    exact Nat.pos_of_mul_pos_left (Nat.zero_lt_of_lt hmore)
  exact huntouched _ (Nat.mul_le_mul_right _ (by omega)) (by omega) ⟨k, hk, j, hcovers⟩

/-! ### A fill that does not wrap around -/

/-- The number of pixels that the fill of `rows` rows writes. -/
def fillCount (mode : Mode) (rows : ℕ) : ℕ := (rows * mode.pitch + mode.bpp - 1) / mode.bpp

theorem lt_fillCount (h : VideoMode mode) (rows k : ℕ) :
    k < fillCount mode rows ↔ k * mode.bpp < rows * mode.pitch := by
  have hpos := h.bpp_pos
  rw [fillCount, Nat.lt_div_iff_mul_lt hpos]
  omega

section Room

variable (h : VideoMode mode) (hroom : mode.fbSize + mode.bpp ≤ 2 ^ 32) (hrows : rows ≤ mode.height)
include h hroom hrows

theorem fillStart_row {k : ℕ} (hk : k < fillCount mode rows) :
    fillStart mode (mode.fbSize - rows * mode.pitch) k = mode.fbSize - rows * mode.pitch + k * mode.bpp := by
  have hle := rows_le h hrows
  rw [lt_fillCount h] at hk
  exact Nat.mod_eq_of_lt (by omega)

theorem fillStops_rows : FillStops mode (mode.fbSize - rows * mode.pitch) (fillCount mode rows) := by
  have hle := rows_le h hrows
  have hpos := h.bpp_pos
  have hlast : rows * mode.pitch ≤ fillCount mode rows * mode.bpp := by
    rw [← Nat.not_lt, ← lt_fillCount h]
    exact lt_irrefl _
  have hmul : fillCount mode rows * mode.bpp ≤ rows * mode.pitch + mode.bpp - 1 := Nat.div_mul_le_self ..
  constructor
  · intro k hk
    have hk' := (lt_fillCount h rows k).mp hk
    rw [fillStart_row h hroom hrows hk]
    omega
  · rw [fillStart, Nat.mod_eq_of_lt (by omega)]
    omega

theorem covers_row {k j : ℕ} (hk : k < fillCount mode rows) :
    Covers stack mode bg (fillStart mode (mode.fbSize - rows * mode.pitch) k) p j ↔
      j < pixelBytes mode ∧ mode.fbSize - rows * mode.pitch + k * mode.bpp + j = p := by
  have hle := rows_le h hrows
  obtain ⟨-, hlen⟩ := pixelBytes_le h
  have hk' := (lt_fillCount h rows k).mp hk
  rw [Covers, length_entryBytes, fillStart_row h hroom hrows hk]
  refine and_congr_right fun hj => ?_
  rw [Nat.mod_eq_of_lt (by omega)]

theorem written_iff : Written stack mode bg (mode.fbSize - rows * mode.pitch) (fillCount mode rows) p ↔
    ∃ k j, k * mode.bpp < rows * mode.pitch ∧ j < pixelBytes mode ∧
      mode.fbSize - rows * mode.pitch + k * mode.bpp + j = p := by
  constructor
  · rintro ⟨k, hk, j, hcovers⟩
    exact ⟨k, j, (lt_fillCount h rows k).mp hk, (covers_row h hroom hrows hk).mp hcovers⟩
  · rintro ⟨k, j, hk, hj⟩
    have hcount := (lt_fillCount h rows k).mpr hk
    exact ⟨k, hcount, j, (covers_row h hroom hrows hcount).mpr hj⟩

/-- The next pixels of the fill are behind this one. -/
theorem lastWritten_row {k j : ℕ} (hk : k * mode.bpp < rows * mode.pitch) (hj : j < pixelBytes mode) :
    LastWritten stack mode bg (mode.fbSize - rows * mode.pitch) (fillCount mode rows)
      (mode.fbSize - rows * mode.pitch + k * mode.bpp + j) j := by
  obtain ⟨-, hlen⟩ := pixelBytes_le h
  have hcount := (lt_fillCount h rows k).mpr hk
  refine ⟨k, hcount, (covers_row h hroom hrows hcount).mpr ⟨hj, rfl⟩, fun k' hlt hcount' j' hcovers => ?_⟩
  obtain ⟨-, heq⟩ := (covers_row h hroom hrows hcount').mp hcovers
  have hbehind : (k + 1) * mode.bpp ≤ k' * mode.bpp := Nat.mul_le_mul_right _ hlt
  rw [Nat.succ_mul] at hbehind
  omega

theorem fills_iff_count : Fills stack mode rows bg ↔
    Untouched stack mode rows bg (fillCount mode rows) ∧ Covered stack mode rows bg (fillCount mode rows) := by
  have hcount := fillStops_rows h hroom hrows
  constructor
  · rintro ⟨n, hstops, hfills⟩
    rwa [hcount.unique hstops]
  · exact fun hfills => ⟨_, hcount, hfills⟩

/-- The last pixel of the fill ends in front of what is copied. -/
theorem untouched_iff (hpos : 0 < rows * mode.pitch) (hlt : rows * mode.pitch < mode.fbSize) :
    Untouched stack mode rows bg (fillCount mode rows) ↔
      mode.fbSize - rows * mode.pitch + pixelBytes mode ≤ (rows * mode.pitch - 1) % mode.bpp + 1 := by
  have hlen := pixelBytes_pos h
  have hlast : (rows * mode.pitch - 1) / mode.bpp * mode.bpp + (rows * mode.pitch - 1) % mode.bpp =
      rows * mode.pitch - 1 := Nat.div_add_mod' ..
  constructor
  · intro huntouched
    by_contra hover
    -- the last pixel is there, or reaches up to there
    have hstart : (rows * mode.pitch - 1) / mode.bpp * mode.bpp < rows * mode.pitch := by omega
    let start := mode.fbSize - rows * mode.pitch + (rows * mode.pitch - 1) / mode.bpp * mode.bpp
    refine huntouched (max start (rows * mode.pitch)) (le_max_right ..) (max_lt (by omega) hlt) ?_
    exact (written_iff h hroom hrows).mpr
      ⟨(rows * mode.pitch - 1) / mode.bpp, max start (rows * mode.pitch) - start, hstart, by omega, by omega⟩
  · intro hends p hp hend hwritten
    obtain ⟨k, j, hk, hj, rfl⟩ := (written_iff h hroom hrows).mp hwritten
    have hk' : k * mode.bpp ≤ (rows * mode.pitch - 1) / mode.bpp * mode.bpp :=
      Nat.mul_le_mul_right _ ((Nat.le_div_iff_mul_le h.bpp_pos).mpr (by omega))
    omega

end Room

/-- A fill of the whole framebuffer has the first pixel of eight. -/
theorem mod_lt_of_written (h : VideoMode mode) (hroom : mode.fbSize + mode.bpp ≤ 2 ^ 32)
    (hwritten : Written stack mode bg (mode.fbSize - mode.height * mode.pitch) (fillCount mode mode.height) p) :
    p % mode.bpp < pixelBytes mode := by
  obtain ⟨-, hlen⟩ := pixelBytes_le h
  obtain ⟨k, j, -, hj, rfl⟩ := (written_iff h hroom le_rfl).mp hwritten
  rwa [h.fbSize_eq, Nat.sub_self, Nat.zero_add, Nat.mul_add_mod_self_right, Nat.mod_eq_of_lt (by omega)]

/-- A fill of the whole framebuffer has every pixel exactly if there is one pixel in a row and a
row is a whole number of steps of the fill. -/
theorem covered_height_iff (h : VideoMode mode) (hroom : mode.fbSize + mode.bpp ≤ 2 ^ 32) (hheight : 0 < mode.height)
    (hwidth : 0 < mode.width) : Covered stack mode mode.height bg (fillCount mode mode.height) ↔
      mode.width = 1 ∧ 0 < mode.pitch ∧ (mode.height = 1 ∨ mode.bpp ∣ mode.pitch) := by
  have hpos := pixelBytes_pos h
  have hpixelSize : 0 < mode.bpp / 8 := Nat.div_pos (Nat.le_of_dvd h.bpp_pos h.bpp_dvd) (by decide)
  obtain ⟨hnext, hlen⟩ := pixelBytes_le h
  constructor
  · intro hcovered
    have hpixel : ∀ y < mode.height, ∀ x < mode.width, ∀ j < pixelBytes mode,
        (y * mode.pitch + x * (mode.bpp / 8) + j) % mode.bpp < pixelBytes mode := by
      intro y hy x hx j hj
      rw [← length_entryBytes stack mode bg] at hj
      obtain ⟨j', ⟨k, hk, hcovers, -⟩, -⟩ := hcovered y x j (by omega) hy hx hj
      exact mod_lt_of_written h hroom ⟨k, hk, j', hcovers⟩
    refine ⟨?_, ?_, ?_⟩
    · by_contra hone
      have hsecond := hpixel 0 hheight 1 (by omega) (pixelBytes mode - 1) (by omega)
      rw [Nat.mod_eq_of_lt (by omega)] at hsecond
      omega
    · rw [← length_entryBytes stack mode bg] at hpos
      obtain ⟨j, ⟨k, hk, -⟩, -⟩ := hcovered 0 0 0 (by omega) hheight hwidth hpos
      have hk' := (lt_fillCount h mode.height k).mp hk
      exact Nat.pos_of_mul_pos_left (Nat.zero_lt_of_lt hk')
    · by_contra! hsteps
      obtain ⟨hsecond, hdvd⟩ := hsteps
      have hfirst := hpixel 1 (by omega) 0 hwidth 0 hpos
      have hlast := hpixel 1 (by omega) 0 hwidth (pixelBytes mode - 1) (by omega)
      rw [Nat.one_mul, Nat.zero_mul, Nat.add_zero] at hfirst hlast
      rw [Nat.add_mod, Nat.mod_eq_of_lt (show pixelBytes mode - 1 < mode.bpp by omega),
        Nat.mod_eq_of_lt (by omega)] at hlast
      exact hdvd (Nat.dvd_of_mod_eq_zero (by omega))
  · rintro ⟨hone, hpitch, hsteps⟩ y x j - hy hx hj
    obtain rfl : x = 0 := by omega
    rw [length_entryBytes] at hj
    obtain ⟨k, hk⟩ : ∃ k, y * mode.pitch = k * mode.bpp := by
      rcases hsteps with hsingle | ⟨m, hm⟩
      · exact ⟨0, by rw [show y = 0 by omega, Nat.zero_mul, Nat.zero_mul]⟩
      · exact ⟨y * m, by rw [hm, Nat.mul_left_comm, Nat.mul_comm]⟩
    have hlt : k * mode.bpp < mode.height * mode.pitch := hk ▸ Nat.mul_lt_mul_of_pos_right hy hpitch
    have hlast : LastWritten stack mode bg _ (fillCount mode mode.height) _ j := lastWritten_row h hroom le_rfl hlt hj
    rw [h.fbSize_eq, Nat.sub_self, Nat.zero_add, ← hk] at hlast
    rw [h.fbSize_eq, Nat.sub_self, Nat.zero_mul, Nat.add_zero]
    exact ⟨j, hlast, rfl⟩

/-- The sizes with which the fill leaves the picture alone and has every pixel of the last rows:
without pixels, it has to end in front of the rows that are copied; with a column of them, the rows
have to be a whole number of its steps apart. -/
def Fitting (mode : Mode) (rows : ℕ) : Prop :=
  (mode.width = 0 ∧ (rows = mode.height ∨ mode.pitch = 0 ∨
    mode.fbSize - rows * mode.pitch + pixelBytes mode ≤ (rows * mode.pitch - 1) % mode.bpp + 1)) ∨
  (mode.width = 1 ∧ rows = mode.height ∧ 0 < mode.pitch ∧ (mode.height = 1 ∨ mode.bpp ∣ mode.pitch))

theorem fills_iff_fitting (h : VideoMode mode) (hroom : mode.fbSize + mode.bpp ≤ 2 ^ 32)
    (hrows : rows ≤ mode.height) (hpos : 0 < rows) (hout : rows = mode.height ∨ mode.width = 0) :
    Fills stack mode rows bg ↔ Fitting mode rows := by
  rw [fills_iff_count h hroom hrows, Fitting]
  rcases Nat.eq_zero_or_pos mode.width with hzero | hwidth
  · have hcovered : Covered stack mode rows bg (fillCount mode rows) := by
      intro y x j _ _ hx
      omega
    rw [and_iff_left hcovered, and_iff_right hzero, or_iff_left (by omega)]
    by_cases hnone : mode.fbSize ≤ rows * mode.pitch
    · -- there is nothing to be copied
      have hempty : rows = mode.height ∨ mode.pitch = 0 := by
        rw [h.fbSize_eq] at hnone
        rcases Nat.eq_zero_or_pos mode.pitch with hpitch | hpitch
        · exact .inr hpitch
        · exact .inl (hrows.antisymm (Nat.le_of_mul_le_mul_right hnone hpitch))
      refine iff_of_true (fun p hp hend => by omega) ?_
      rw [← or_assoc]
      exact .inl hempty
    · have hpitch : 0 < mode.pitch := by
        by_contra hzero'
        rw [h.fbSize_eq, Nat.eq_zero_of_not_pos hzero'] at hnone
        omega
      have hlt : rows ≠ mode.height := by
        rintro rfl
        exact hnone h.fbSize_eq.le
      rw [untouched_iff h hroom hrows (Nat.mul_pos hpos hpitch) (Nat.lt_of_not_le hnone), or_iff_right hlt,
        or_iff_right hpitch.ne']
  · obtain rfl : rows = mode.height := hout.resolve_right hwidth.ne'
    have huntouched : Untouched stack mode mode.height bg (fillCount mode mode.height) := by
      intro p hp hend
      rw [h.fbSize_eq] at hend
      omega
    rw [and_iff_right huntouched, covered_height_iff h hroom hpos hwidth, and_iff_right rfl]
    exact (or_iff_right fun hnone => hwidth.ne' hnone.1).symm

/-- A scroll of some rows of a picture is never right; one of all rows is if there is one pixel in a
row, and each has its turn in the fill. -/
theorem vesaScroll_iff (stack : ℕ → Byte) (bg : Color) (h : VideoMode mode) (hrows : rows ≤ mode.height) :
    ScrollsTo stack mode rows bg ↔ rows = 0 ∨ (rows = mode.height ∨ mode.width = 0) ∧
      if mode.fbSize + mode.bpp ≤ 2 ^ 32 then Fitting mode rows else Fills stack mode rows bg := by
  rw [scrollsTo_iff_fills stack bg h hrows]
  rcases Nat.eq_zero_or_pos rows with rfl | hpos
  · exact iff_of_true (fills_zero h) (.inl rfl)
  · rw [or_iff_right hpos.ne']
    by_cases hout : rows = mode.height ∨ mode.width = 0
    · rw [and_iff_right hout]
      split_ifs with hroom
      · exact fills_iff_fitting h hroom hrows hpos hout
      · rfl
    · refine iff_of_false (not_fills_between h hpos ?_ ?_) fun hfits => hout hfits.1 <;> omega

/-- Two rows of two pixels of 32 bits. -/
def tiny : Mode := ⟨.graphic, 16, 2, 2, 8, 32, 255, 16, 255, 8, 255, 0, 0, 0⟩

theorem videoMode_tiny : VideoMode tiny := ⟨by decide, by decide, by decide, by decide, by decide⟩

def black : Color := ⟨0, 0, 0, 0, 0⟩

/-- Two rows of one pixel, so far apart that the fill comes to both. -/
def column : Mode := ⟨.graphic, 64, 1, 2, 32, 32, 255, 16, 255, 8, 255, 0, 0, 0⟩

theorem videoMode_column : VideoMode column := ⟨by decide, by decide, by decide, by decide, by decide⟩

/-- The column is scrolled away; the picture of two columns is not, and neither can be moved up by
a row. -/
theorem scrollsTo_column : ScrollsTo (fun _ => 0) column 2 black ∧ ¬ScrollsTo (fun _ => 0) tiny 2 black ∧
    ¬ScrollsTo (fun _ => 0) column 1 black := by
  refine ⟨(vesaScroll_iff _ black videoMode_column (by decide)).mpr (.inr ⟨.inl rfl, ?_⟩), fun h => ?_, fun h => ?_⟩
  · rw [if_pos (by decide)]
    exact .inr ⟨rfl, rfl, by decide, .inr (by decide)⟩
  · rcases (vesaScroll_iff _ black videoMode_tiny (by decide)).mp h with hzero | ⟨-, hfits⟩
    · exact absurd hzero (by decide)
    · rw [if_pos (by decide)] at hfits
      rcases hfits with ⟨hwidth, -⟩ | ⟨hwidth, -⟩ <;> exact absurd hwidth (by decide)
  · rcases (vesaScroll_iff _ black videoMode_column (by decide)).mp h with hzero | ⟨hout, -⟩
    · exact absurd hzero (by decide)
    · exact absurd hout (by decide)

/-- A white picture of two rows scrolled by one: its first pixel is filled before it is copied. -/
theorem not_scrollsTo_tiny_one : ¬ScrollsTo (fun _ => 0) tiny 1 black := by
  intro h
  obtain ⟨fb', hrun, hcopied, -⟩ := h fun _ => 0xFF
  have hfirst : (vesaScroll (fun _ => 0) tiny 1 black fun _ => 0xFF).map (fun fb => fb 0) = some 0 := by decide
  rw [hrun, Option.map_some, Option.some.injEq, hcopied 0 (by decide)] at hfirst
  exact absurd hfirst (by decide)

end JustKernel.Screen
