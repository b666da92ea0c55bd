import DevOs.Lib.Run
import Mathlib.Logic.Function.Basic

/-!
The text screen, after `drivers/vga.c`: 25 rows of 80 cells, a cursor and a
colour.
-/

namespace DevOs

open Function

def vgaCols : Nat := 80

def vgaRows : Nat := 25

inductive VgaColor where
  | black | blue | green | cyan | red | magenta | brown | lightGrey
  | darkGrey | lightBlue | lightGreen | lightCyan | lightRed | lightMagenta | lightBrown | white
  deriving DecidableEq, Repr

def VgaColor.code : VgaColor → UInt8
  | black => 0 | blue => 1 | green => 2 | cyan => 3
  | red => 4 | magenta => 5 | brown => 6 | lightGrey => 7
  | darkGrey => 8 | lightBlue => 9 | lightGreen => 10 | lightCyan => 11
  | lightRed => 12 | lightMagenta => 13 | lightBrown => 14 | white => 15

def makeEntry (c color : UInt8) : UInt16 := c.toUInt16 ||| color.toUInt16 <<< 8

def blankEntry (color : UInt8) : UInt16 := makeEntry 32 color

/-- The buffer and the variables of the driver, with the indices of the buffer that were
written to. -/
structure Vga where
  buf : Nat → UInt16
  row : Nat
  col : Nat
  color : UInt8
  written : List Nat

/-- `buf[i] = x`. -/
def Vga.poke (v : Vga) (i : Nat) (x : UInt16) : Vga :=
  { v with buf := update v.buf i x, written := i :: v.written }

def vgaInit (v : Vga) : Vga :=
  let v := { v with color := VgaColor.lightGrey.code ||| VgaColor.black.code <<< 4,
                    row := 0, col := 0 }
  (List.range (vgaCols * vgaRows)).foldl (fun v i => v.poke i (blankEntry v.color)) v

def vgaSetColor (v : Vga) (fg bg : VgaColor) : Vga :=
  { v with color := fg.code ||| bg.code <<< 4 }

def vgaScroll (v : Vga) : Vga :=
  let v := (List.range (vgaRows - 1)).foldl (fun v r =>
    (List.range vgaCols).foldl (fun v c =>
      v.poke (r * vgaCols + c) (v.buf ((r + 1) * vgaCols + c))) v) v
  let v := (List.range vgaCols).foldl (fun v c =>
    v.poke ((vgaRows - 1) * vgaCols + c) (blankEntry v.color)) v
  { v with row := vgaRows - 1 }

/-- `if (++vga_row >= VGA_ROWS) vga_scroll();` -/
def vgaNextRow (v : Vga) : Vga :=
  let v := { v with row := v.row + 1 }
  if vgaRows ≤ v.row then vgaScroll v else v

def vgaPutchar (v : Vga) (c : UInt8) : Vga :=
  if c = 10 then vgaNextRow { v with col := 0 }
  else if c = 13 then { v with col := 0 }
  else
    let v := v.poke (v.row * vgaCols + v.col) (makeEntry c v.color)
    let v := { v with col := v.col + 1 }
    if vgaCols ≤ v.col then vgaNextRow { v with col := 0 } else v

structure Terminal where
  cell : Nat → Nat → UInt16
  row : Nat
  col : Nat
  color : UInt8

namespace Terminal

/-- The first of the rows that are seen: the cursor is in the last one, or above it as
long as there have been no more. -/
def top (t : Terminal) : Nat := t.row - (vgaRows - 1)

def start : Terminal where
  cell _ _ := blankEntry 7
  row := 0
  col := 0
  color := 7

def nextRow (t : Terminal) : Terminal :=
  { t with
    row := t.row + 1
    cell := if vgaRows ≤ t.row + 1 then
      update t.cell (t.row + 1) fun _ => blankEntry t.color else t.cell }

def putchar (t : Terminal) (c : UInt8) : Terminal :=
  if c = 10 then nextRow { t with col := 0 }
  else if c = 13 then { t with col := 0 }
  else
    let cell := update t.cell t.row
      (update (t.cell t.row) t.col (makeEntry c t.color))
    if t.col + 1 = vgaCols then nextRow { t with cell := cell, col := 0 }
    else { t with cell := cell, col := t.col + 1 }

def setColor (t : Terminal) (fg bg : VgaColor) : Terminal :=
  { t with color := fg.code ||| bg.code <<< 4 }

end Terminal

inductive VgaOp where
  | putchar (c : UInt8)
  | setColor (fg bg : VgaColor)

def vgaStep (v : Vga) : VgaOp → Vga
  | .putchar c => vgaPutchar v c
  | .setColor fg bg => vgaSetColor v fg bg

def Terminal.step (t : Terminal) : VgaOp → Terminal
  | .putchar c => t.putchar c
  | .setColor fg bg => t.setColor fg bg

def Vga.Inside (v : Vga) : Prop := ∀ i ∈ v.written, i < vgaCols * vgaRows

/-- A loop has changed `v` to `v'`: the buffer is `f`, the variables are as before. -/
structure Filled (v : Vga) (f : Nat → UInt16) (v' : Vga) : Prop where
  buf : v'.buf = f
  row : v'.row = v.row
  col : v'.col = v.col
  color : v'.color = v.color
  inside : v.Inside → v'.Inside

variable {v v' : Vga} {f : Nat → UInt16} {t : Terminal}

theorem Vga.Inside.poke (h : v.Inside) {i : Nat} (hi : i < vgaCols * vgaRows) (x : UInt16) :
    (v.poke i x).Inside :=
  List.forall_mem_cons.mpr ⟨hi, h⟩

theorem filled_refl (v : Vga) : Filled v v.buf v := ⟨rfl, rfl, rfl, rfl, id⟩

theorem Filled.poke (h : Filled v f v') {i : Nat} (hi : i < vgaCols * vgaRows) (x : UInt16) :
    Filled v (update f i x) (v'.poke i x) where
  buf := by rw [← h.buf]; rfl
  row := h.row
  col := h.col
  color := h.color
  inside hv := (h.inside hv).poke hi x

/-- The buffer after the first `k` cells were copied from the row below. -/
def copied (v : Vga) (k : Nat) (i : Nat) : UInt16 := if i < k then v.buf (i + vgaCols) else v.buf i

/-- The buffer after the `k` cells from `base` on were made blank. -/
def blanked (v : Vga) (base k : Nat) (i : Nat) : UInt16 :=
  if base ≤ i ∧ i < base + k then blankEntry v.color else v.buf i

theorem filled_copied_succ {k : Nat} (h : Filled v (copied v k) v') (hk : k < vgaCols * vgaRows) :
    Filled v (copied v (k + 1)) (v'.poke k (v'.buf (k + vgaCols))) := by
  have hbelow : v'.buf (k + vgaCols) = v.buf (k + vgaCols) := by
    rw [h.buf, copied, if_neg (Nat.not_lt.mpr (Nat.le_add_right k vgaCols))]
  have hcopied : copied v (k + 1) = update (copied v k) k (v'.buf (k + vgaCols)) := by
    funext i
    rw [update_apply, hbelow]
    by_cases hi : i = k
    · rw [if_pos hi, hi, copied, if_pos (Nat.lt_succ_self k)]
    · rw [if_neg hi, copied, copied]
      have hiff : i < k + 1 ↔ i < k := by omega
      simp only [hiff]
  rw [hcopied]
  exact h.poke hk _

theorem filled_blanked_succ {base k : Nat} (h : Filled v (blanked v base k) v')
    (hk : base + k < vgaCols * vgaRows) :
    Filled v (blanked v base (k + 1)) (v'.poke (base + k) (blankEntry v'.color)) := by
  have hblanked : blanked v base (k + 1) =
      update (blanked v base k) (base + k) (blankEntry v'.color) := by
    funext i
    rw [update_apply, h.color]
    by_cases hi : i = base + k
    · rw [if_pos hi, blanked, if_pos (by omega)]
    · rw [if_neg hi, blanked, blanked]
      have hiff : (base ≤ i ∧ i < base + (k + 1)) ↔ (base ≤ i ∧ i < base + k) := by omega
      simp only [hiff]
  rw [hblanked]
  exact h.poke hk _

theorem filled_blank_loop (v : Vga) (base n : Nat) (hn : base + n ≤ vgaCols * vgaRows) :
    Filled v (blanked v base n)
      ((List.range n).foldl (fun v c => v.poke (base + c) (blankEntry v.color)) v) := by
  refine Machine.loop_invariant (fun k v' => Filled v (blanked v base k) v') ?_ ?_
  · have hnone : blanked v base 0 = v.buf := by
      funext i
      rw [blanked, if_neg (by omega)]
    rw [hnone]
    exact filled_refl v
  · exact fun k v' hk h => filled_blanked_succ h (by omega)

theorem filled_copy_row {r : Nat} (h : Filled v (copied v (r * vgaCols)) v')
    (hr : r < vgaRows - 1) : Filled v (copied v ((r + 1) * vgaCols))
      ((List.range vgaCols).foldl (fun v c =>
        v.poke (r * vgaCols + c) (v.buf ((r + 1) * vgaCols + c))) v') := by
  rw [Nat.succ_mul]
  refine Machine.loop_invariant (fun c v' => Filled v (copied v (r * vgaCols + c)) v') h ?_
  intro c v' hc h
  have hcell : r * vgaCols + c < vgaCols * vgaRows := by
    have hr : r < 24 := hr
    have hc : c < 80 := hc
    change r * 80 + c < 80 * 25
    omega
  rw [Nat.add_right_comm]
  exact filled_copied_succ h hcell

theorem filled_copy_loop (v : Vga) : Filled v (copied v ((vgaRows - 1) * vgaCols))
      ((List.range (vgaRows - 1)).foldl (fun v r => (List.range vgaCols).foldl (fun v c =>
          v.poke (r * vgaCols + c) (v.buf ((r + 1) * vgaCols + c))) v) v) := by
  refine Machine.loop_invariant (fun r v' => Filled v (copied v (r * vgaCols)) v') ?_ ?_
  · have hnone : copied v (0 * vgaCols) = v.buf := by
      funext i
      rw [copied, if_neg (by omega)]
    rw [hnone]
    exact filled_refl v
  · exact fun r v' hr h => filled_copy_row h hr

theorem vgaScroll_spec (v : Vga) : Filled { v with row := vgaRows - 1 }
      (fun i => if i < (vgaRows - 1) * vgaCols then v.buf (i + vgaCols)
        else if i < vgaRows * vgaCols then blankEntry v.color else v.buf i)
      (vgaScroll v) := by
  have hcopy := filled_copy_loop v
  unfold vgaScroll
  generalize (List.range (vgaRows - 1)).foldl _ v = w at hcopy ⊢
  have hblank := filled_blank_loop w ((vgaRows - 1) * vgaCols) vgaCols (by decide)
  dsimp only
  generalize (List.range vgaCols).foldl _ w = w' at hblank ⊢
  refine ⟨?_, rfl, hblank.col.trans hcopy.col, hblank.color.trans hcopy.color,
    fun hv => hblank.inside (hcopy.inside hv)⟩
  dsimp only
  rw [hblank.buf]
  funext i
  rw [blanked, hcopy.color, hcopy.buf, copied]
  have hcols : (vgaRows - 1) * vgaCols + vgaCols = vgaRows * vgaCols := rfl
  rw [hcols]
  by_cases hi : i < (vgaRows - 1) * vgaCols
  · rw [if_neg (fun h => absurd h.1 (Nat.not_le.mpr hi)), if_pos hi, if_pos hi]
  · by_cases hi' : i < vgaRows * vgaCols
    · rw [if_pos ⟨Nat.le_of_not_lt hi, hi'⟩, if_neg hi, if_pos hi']
    · rw [if_neg (fun h => hi' h.2), if_neg hi, if_neg hi, if_neg hi']

structure Displays (t : Terminal) (v : Vga) : Prop where
  cell : ∀ r < vgaRows, ∀ c < vgaCols, v.buf (r * vgaCols + c) = t.cell (t.top + r) c
  row : t.row = t.top + v.row
  col : v.col = t.col
  col_lt : t.col < vgaCols
  color : v.color = t.color
  inside : v.Inside

theorem displays_start (buf : Nat → UInt16) (row col : Nat) (color : UInt8) :
    Displays Terminal.start (vgaInit ⟨buf, row, col, color, []⟩) := by
  unfold vgaInit
  dsimp only
  have hloop := filled_blank_loop
    ⟨buf, 0, 0, VgaColor.lightGrey.code ||| VgaColor.black.code <<< 4, []⟩ 0
    (vgaCols * vgaRows) (by decide)
  simp only [Nat.zero_add] at hloop
  generalize (List.range (vgaCols * vgaRows)).foldl _ _ = v at hloop ⊢
  refine ⟨fun r hr c hc => ?_, ?_, hloop.col, by decide, hloop.color,
    hloop.inside (List.forall_mem_nil _)⟩
  swap
  · rw [hloop.row]
    rfl
  have hcell : r * vgaCols + c < vgaCols * vgaRows := by
    have hr : r < 25 := hr
    have hc : c < 80 := hc
    change r * 80 + c < 80 * 25
    omega
  rw [hloop.buf, blanked, Nat.zero_add, if_pos ⟨Nat.zero_le _, hcell⟩]
  rfl

section

variable (h : Displays t v)
include h

theorem Displays.row_lt : v.row < vgaRows := by
  have hrow := h.row
  unfold Terminal.top at hrow
  unfold vgaRows at *
  omega

theorem Displays.col_zero : Displays { t with col := 0 } { v with col := 0 } :=
  ⟨h.cell, h.row, rfl, (by decide : 0 < vgaCols), h.color, h.inside⟩

theorem Displays.nextRow : Displays t.nextRow (vgaNextRow v) := by
  have hrow : t.row = t.row - 24 + v.row := h.row
  by_cases hlast : vgaRows ≤ t.row + 1
  · have hlast' : 25 ≤ t.row + 1 := hlast
    -- the cursor was in the last row: the window moves down
    have hv : v.row = 24 := by omega
    have htop : t.nextRow.top = t.top + 1 := by
      change t.row + 1 - 24 = t.row - 24 + 1
      omega
    have hscroll := vgaScroll_spec { v with row := v.row + 1 }
    rw [vgaNextRow, if_pos (show vgaRows ≤ v.row + 1 by rw [hv]; decide)]
    refine ⟨fun r hr c hc => ?_, ?_, hscroll.col.trans h.col, h.col_lt,
      hscroll.color.trans h.color, hscroll.inside h.inside⟩
    · have hr' : r < 25 := hr
      have hc' : c < 80 := hc
      have hcell : t.nextRow.cell = update t.cell (t.row + 1) fun _ =>
          blankEntry t.color := if_pos hlast
      rw [hscroll.buf, htop, hcell]
      dsimp only
      by_cases hbottom : r = 24
      · have hge : ¬ r * vgaCols + c < (vgaRows - 1) * vgaCols := by
          change ¬ r * 80 + c < 24 * 80
          omega
        have hlt : r * vgaCols + c < vgaRows * vgaCols := by
          change r * 80 + c < 25 * 80
          omega
        have hnew : t.top + 1 + r = t.row + 1 := by
          change t.row - 24 + 1 + r = t.row + 1
          omega
        rw [if_neg hge, if_pos hlt, hnew, update_self, h.color]
      · have hlt : r * vgaCols + c < (vgaRows - 1) * vgaCols := by
          change r * 80 + c < 24 * 80
          omega
        have hold : t.top + 1 + r ≠ t.row + 1 := by
          change t.row - 24 + 1 + r ≠ t.row + 1
          omega
        have hbelow : r * vgaCols + c + vgaCols = (r + 1) * vgaCols + c := by
          rw [Nat.succ_mul, Nat.add_right_comm]
        have hnext : t.top + 1 + r = t.top + (r + 1) := by omega
        rw [if_pos hlt, update_of_ne hold, hbelow,
          h.cell (r + 1) (show r + 1 < 25 by omega) c hc, hnext]
    · rw [htop, hscroll.row]
      change t.row + 1 = t.row - 24 + 1 + 24
      omega
  · have hlast' : ¬ 25 ≤ t.row + 1 := hlast
    have hv : v.row = t.row := by omega
    have htop : t.nextRow.top = t.top := by
      change t.row + 1 - 24 = t.row - 24
      omega
    have hcell : t.nextRow.cell = t.cell := if_neg hlast
    rw [vgaNextRow, if_neg (show ¬ vgaRows ≤ v.row + 1 by rw [hv]; exact hlast)]
    refine ⟨fun r hr c hc => ?_, ?_, h.col, h.col_lt, h.color, h.inside⟩
    · rw [htop, hcell]
      exact h.cell r hr c hc
    · rw [htop]
      exact congrArg (· + 1) h.row

theorem Displays.poke (x : UInt16) :
    Displays { t with cell := update t.cell t.row (update (t.cell t.row) t.col x) }
      (v.poke (v.row * vgaCols + v.col) x) := by
  have hrow := h.row
  have hcursor : v.row * vgaCols + v.col < vgaCols * vgaRows := by
    have hr : v.row < 25 := h.row_lt
    have hc : v.col < 80 := h.col ▸ h.col_lt
    change v.row * 80 + v.col < 80 * 25
    omega
  refine ⟨fun r hr c hc => ?_, h.row, h.col, h.col_lt, h.color, h.inside.poke hcursor x⟩
  have hsame : r * vgaCols + c = v.row * vgaCols + v.col ↔ r = v.row ∧ c = v.col := by
    have hc : c < 80 := hc
    have hcol : v.col < 80 := h.col ▸ h.col_lt
    change r * 80 + c = v.row * 80 + v.col ↔ _
    omega
  have hrow' : t.top + r = t.row ↔ r = v.row := by omega
  have hcell := h.cell r hr c hc
  change update v.buf (v.row * vgaCols + v.col) x (r * vgaCols + c) =
    update t.cell t.row (update (t.cell t.row) t.col x) (t.top + r) c
  by_cases hr : r = v.row
  · rw [hrow'.mpr hr, update_self, update_apply, update_apply, ← h.col, ← hrow'.mpr hr, ← hcell]
    exact ite_congr (propext (hsame.trans (and_iff_right hr))) (fun _ => rfl) fun _ => rfl
  · rw [update_of_ne fun heq => hr (hsame.mp heq).1,
      update_of_ne fun heq => hr (hrow'.mp heq), hcell]

theorem Displays.putchar (c : UInt8) : Displays (t.putchar c) (vgaPutchar v c) := by
  unfold Terminal.putchar vgaPutchar
  by_cases hnl : c = 10
  · rw [if_pos hnl, if_pos hnl]
    exact h.col_zero.nextRow
  rw [if_neg hnl, if_neg hnl]
  by_cases hcr : c = 13
  · rw [if_pos hcr, if_pos hcr]
    exact h.col_zero
  rw [if_neg hcr, if_neg hcr]
  have hpoke := h.poke (makeEntry c t.color)
  have hlt := h.col_lt
  dsimp only
  rw [h.color, show (v.poke (v.row * vgaCols + v.col) (makeEntry c t.color)).col = t.col from h.col]
  by_cases hlast : t.col + 1 = vgaCols
  · rw [if_pos hlast, if_pos (Nat.le_of_eq hlast.symm)]
    exact hpoke.col_zero.nextRow
  · rw [if_neg hlast, if_neg (by omega)]
    exact ⟨hpoke.cell, hpoke.row, rfl, Nat.lt_of_le_of_ne hlt hlast, h.color, hpoke.inside⟩

theorem Displays.step (op : VgaOp) : Displays (t.step op) (vgaStep v op) := by
  cases op with
  | putchar c => exact h.putchar c
  | setColor fg bg => exact ⟨h.cell, h.row, h.col, h.col_lt, rfl, h.inside⟩

theorem displays_foldl (ops : List VgaOp) :
    Displays (ops.foldl Terminal.step t) (ops.foldl vgaStep v) := by
  induction ops generalizing t v with
  | nil => exact h
  | cons op ops ih => exact ih (h.step op)

end

/-- **The screen is the last 25 rows of the terminal.** -/
theorem vga_displays_terminal (buf : Nat → UInt16) (row col : Nat) (color : UInt8)
    (ops : List VgaOp) :
    let v := ops.foldl vgaStep (vgaInit ⟨buf, row, col, color, []⟩)
    let t := ops.foldl Terminal.step Terminal.start
    (∀ r < 25, ∀ c < 80, v.buf (r * 80 + c) = t.cell (t.row - 24 + r) c) ∧
      v.row = t.row - (t.row - 24) ∧ v.col = t.col ∧ ∀ i ∈ v.written, i < 2000 := by
  intro v t
  have h : Displays t v := displays_foldl (displays_start buf row col color) ops
  have hrow : t.row = t.row - 24 + v.row := h.row
  exact ⟨h.cell, by omega, h.col, h.inside⟩

end DevOs
