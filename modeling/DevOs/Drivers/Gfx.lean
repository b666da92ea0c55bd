import DevOs.Types
import Mathlib.Data.Int.Order.Basic
import Mathlib.Tactic.Linarith
import Mathlib.Tactic.Ring

/-!
`gfx_draw_line` of `drivers/gpu/gfx.c`, which draws a line by Bresenham's algorithm.
-/

namespace DevOs

/-- The result of an operation on `int`, none if it overflows. -/
def intResult (v : Int) : Option Int := if -2 ^ 31 ≤ v ∧ v < 2 ^ 31 then some v else none

/-- The variables of `gfx_draw_line` that its loop reads only. -/
structure LineSpec where
  x1 : Int
  y1 : Int
  dx : Int
  dy : Int
  sx : Int
  sy : Int

structure LinePen where
  x0 : Int
  y0 : Int
  err : Int

/-- `if (e2 >= dy) { err += dy; x0 += sx; }` -/
def LinePen.stepX (l : LineSpec) (e2 : Int) (p : LinePen) : Option LinePen :=
  if l.dy ≤ e2 then do
    let err ← intResult (p.err + l.dy)
    let x0 ← intResult (p.x0 + l.sx)
    return { p with err := err, x0 := x0 }
  else some p

/-- `if (e2 <= dx) { err += dx; y0 += sy; }` -/
def LinePen.stepY (l : LineSpec) (e2 : Int) (p : LinePen) : Option LinePen :=
  if e2 ≤ l.dx then do
    let err ← intResult (p.err + l.dx)
    let y0 ← intResult (p.y0 + l.sy)
    return { p with err := err, y0 := y0 }
  else some p

/-- A pass of the loop, from `int e2 = 2 * err` on. -/
def LinePen.step (l : LineSpec) (p : LinePen) : Option LinePen := do
  let e2 ← intResult (2 * p.err)
  let p ← p.stepX l e2
  p.stepY l e2

/-- The loop: the points that `fb_put_pixel` gets, before they are converted to
`uint32_t`. It is none if an operation overflows, or if the fuel is not enough. -/
def lineLoop (l : LineSpec) : Nat → LinePen → Option (List (Int × Int))
  | 0, _ => none
  | fuel + 1, p =>
    if p.x0 = l.x1 ∧ p.y0 = l.y1 then some [(p.x0, p.y0)]
    else do
      let p' ← p.step l
      let rest ← lineLoop l fuel p'
      return (p.x0, p.y0) :: rest

def gfxDrawLine (fuel : Nat) (x0 y0 x1 y1 : Int32) : Option (List (Int × Int)) := do
  let dx ← intResult (if x1 > x0 then x1.toInt - x0.toInt else x0.toInt - x1.toInt)
  let ady ← intResult (if y1 > y0 then y1.toInt - y0.toInt else y0.toInt - y1.toInt)
  let dy ← intResult (-ady)
  let sx := if x0 < x1 then 1 else -1
  let sy := if y0 < y1 then 1 else -1
  let err ← intResult (dx + dy)
  lineLoop ⟨x1.toInt, y1.toInt, dx, dy, sx, sy⟩ fuel ⟨x0.toInt, y0.toInt, err⟩

/-- After `n` passes the line has made `i` of its `a` steps along `x` and `j` of its `b`
steps along `y`: one of them in every pass along the longer side. -/
structure Bresenham (a b n i j err : Int) : Prop where
  error : err = (j + 1) * a - (i + 1) * b
  lower : min (-b) (2 * a - 3 * b) ≤ 2 * err
  upper : 2 * err ≤ max a (3 * a - 2 * b)
  alongX : b ≤ a → i = n
  alongY : a ≤ b → j = n
  nonneg : 0 ≤ i ∧ 0 ≤ j

namespace Bresenham

variable {a b n i j err : Int}

theorem start (ha : 0 ≤ a) (hb : 0 ≤ b) : Bresenham a b 0 0 0 (a - b) where
  error := by ring
  lower := by omega
  upper := by omega
  alongX := fun _ => rfl
  alongY := fun _ => rfl
  nonneg := ⟨le_rfl, le_rfl⟩

variable (h : Bresenham a b n i j err)
include h

theorem swap : Bresenham b a n j i (-err) where
  error := by rw [h.error]; ring
  lower := by have := h.upper; omega
  upper := by have := h.lower; omega
  alongX := h.alongY
  alongY := h.alongX
  nonneg := h.nonneg.symm

theorem movesX (hab : b ≤ a) : -b ≤ 2 * err := by
  have := h.lower
  omega

theorem movesY (hab : a ≤ b) : 2 * err ≤ a := by
  have := h.upper
  omega

theorem step (ha : 0 ≤ a) (hb : 0 ≤ b) :
    Bresenham a b (n + 1) (if -b ≤ 2 * err then i + 1 else i) (if 2 * err ≤ a then j + 1 else j)
      (err - (if -b ≤ 2 * err then b else 0) + if 2 * err ≤ a then a else 0) where
  error := by
    rw [h.error]
    split <;> split <;> ring
  lower := by
    have := h.lower
    have := h.upper
    split <;> split <;> omega
  upper := by
    have := h.lower
    have := h.upper
    split <;> split <;> omega
  alongX := fun hab => by rw [if_pos (h.movesX hab), h.alongX hab]
  alongY := fun hab => by rw [if_pos (h.movesY hab), h.alongY hab]
  nonneg := by
    have := h.nonneg
    split <;> split <;> omega

theorem le_of_lt (hb : 0 ≤ b) (hab : b < a) (hn : n ≤ a) : j ≤ b := by
  by_contra hj
  have hi : i ≤ a := by rw [h.alongX hab.le]; exact hn
  have hja : (b + 1) * a ≤ j * a := mul_le_mul_of_nonneg_right (by omega) (by omega)
  have hib : i * b ≤ a * b := mul_le_mul_of_nonneg_right hi hb
  have herr := h.upper
  rw [h.error, max_eq_right (by omega)] at herr
  linarith

theorem eq_of_lt (hb : 0 ≤ b) (hab : b < a) (hn : n = a) : i = a ∧ j = b := by
  have hi : i = a := (h.alongX hab.le).trans hn
  refine ⟨hi, le_antisymm (h.le_of_lt hb hab hn.le) ?_⟩
  by_contra hj
  have hja : (j + 1) * a ≤ b * a := mul_le_mul_of_nonneg_right (by omega) (by omega)
  have herr := h.lower
  have := h.nonneg
  rw [h.error, hi, min_eq_left (by omega)] at herr
  linarith

theorem inside (ha : 0 ≤ a) (hb : 0 ≤ b) (hn : n ≤ max a b) : i ≤ a ∧ j ≤ b := by
  obtain hab | rfl | hab := lt_trichotomy a b
  · rw [h.alongY hab.le]
    exact ⟨h.swap.le_of_lt ha hab (by omega), by omega⟩
  · rw [h.alongX le_rfl, h.alongY le_rfl]
    omega
  · rw [h.alongX hab.le]
    exact ⟨by omega, h.le_of_lt hb hab (by omega)⟩

theorem done_iff (ha : 0 ≤ a) (hb : 0 ≤ b) : i = a ∧ j = b ↔ n = max a b := by
  have hx := h.alongX
  have hy := h.alongY
  refine ⟨fun hdone => by omega, fun hn => ?_⟩
  obtain hab | rfl | hab := lt_trichotomy a b
  · exact (h.swap.eq_of_lt ha hab (by omega)).symm
  · omega
  · exact h.eq_of_lt hb hab (by omega)

end Bresenham

/-- The two points are the same or neighbours. -/
def Adjacent (p q : Int × Int) : Prop := (q.1 - p.1).natAbs ≤ 1 ∧ (q.2 - p.2).natAbs ≤ 1

/-- The point is in the rectangle with the corners `(x, y)` and `(x', y')`. -/
def InBox (x y x' y' : Int) (p : Int × Int) : Prop :=
  (min x x' ≤ p.1 ∧ p.1 ≤ max x x') ∧ min y y' ≤ p.2 ∧ p.2 ≤ max y y'

/-- What `gfx_draw_line` has set up for a line from `(x, y)`. -/
structure LineSpec.Ok (l : LineSpec) (x y : Int) : Prop where
  dx : 0 ≤ l.dx ∧ l.dx < 2 ^ 29
  dy : 0 ≤ -l.dy ∧ -l.dy < 2 ^ 29
  endX : (l.sx = 1 ∨ l.sx = -1) ∧ l.x1 = x + l.sx * l.dx
  endY : (l.sy = 1 ∨ l.sy = -1) ∧ l.y1 = y + l.sy * -l.dy
  startInt : (-2 ^ 31 ≤ x ∧ x < 2 ^ 31) ∧ -2 ^ 31 ≤ y ∧ y < 2 ^ 31
  endInt : (-2 ^ 31 ≤ l.x1 ∧ l.x1 < 2 ^ 31) ∧ -2 ^ 31 ≤ l.y1 ∧ l.y1 < 2 ^ 31

def LinePen.At (p : LinePen) (l : LineSpec) (x y n : Int) : Prop :=
  ∃ i j, Bresenham l.dx (-l.dy) n i j p.err ∧ p.x0 = x + l.sx * i ∧ p.y0 = y + l.sy * j

variable {l : LineSpec} {p : LinePen} {x y n v : Int}

theorem intResult_eq_some (h : -2 ^ 31 ≤ v ∧ v < 2 ^ 31) : intResult v = some v := if_pos h

theorem LinePen.At.inBox (h : p.At l x y n) (hl : l.Ok x y) (hn : n ≤ max l.dx (-l.dy)) :
    InBox x y l.x1 l.y1 (p.x0, p.y0) := by
  obtain ⟨i, j, hb, hx, hy⟩ := h
  have hle := hb.inside hl.dx.1 hl.dy.1 hn
  have hnonneg := hb.nonneg
  obtain ⟨hsx, hx1⟩ := hl.endX
  obtain ⟨hsy, hy1⟩ := hl.endY
  constructor
  · rcases hsx with hs | hs <;> rw [hs] at hx hx1 <;> simp only <;> omega
  · rcases hsy with hs | hs <;> rw [hs] at hy hy1 <;> simp only <;> omega

theorem LinePen.At.done_iff (h : p.At l x y n) (hl : l.Ok x y) :
    p.x0 = l.x1 ∧ p.y0 = l.y1 ↔ n = max l.dx (-l.dy) := by
  obtain ⟨i, j, hb, hx, hy⟩ := h
  rw [← hb.done_iff hl.dx.1 hl.dy.1, hx, hy, hl.endX.2, hl.endY.2]
  rcases hl.endX.1 with hs | hs <;> rcases hl.endY.1 with hs' | hs' <;> rw [hs, hs'] <;> omega

def LinePen.next (l : LineSpec) (p : LinePen) : LinePen where
  x0 := if l.dy ≤ 2 * p.err then p.x0 + l.sx else p.x0
  y0 := if 2 * p.err ≤ l.dx then p.y0 + l.sy else p.y0
  err := p.err - (if l.dy ≤ 2 * p.err then -l.dy else 0) + if 2 * p.err ≤ l.dx then l.dx else 0

theorem LinePen.At.next (h : p.At l x y n) (hl : l.Ok x y) : (p.next l).At l x y (n + 1) := by
  obtain ⟨i, j, hb, hx, hy⟩ := h
  have hstep := hb.step hl.dx.1 hl.dy.1
  rw [neg_neg] at hstep
  refine ⟨_, _, hstep, ?_, ?_⟩
  · simp only [LinePen.next, hx]
    split <;> ring
  · simp only [LinePen.next, hy]
    split <;> ring

theorem LinePen.adjacent_next (hl : l.Ok x y) :
    Adjacent (p.x0, p.y0) ((p.next l).x0, (p.next l).y0) := by
  have hx := hl.endX.1
  have hy := hl.endY.1
  constructor
  · simp only [LinePen.next]
    split <;> omega
  · simp only [LinePen.next]
    split <;> omega

theorem LinePen.At.step (h : p.At l x y n) (hl : l.Ok x y) (hn : n < max l.dx (-l.dy)) :
    p.step l = some (p.next l) := by
  have hbox := (h.next hl).inBox hl (by omega)
  obtain ⟨i, j, hb, -, -⟩ := h
  have hlower := hb.lower
  have hupper := hb.upper
  have hdx := hl.dx
  have hdy := hl.dy
  have hstart := hl.startInt
  have hend := hl.endInt
  simp only [InBox, LinePen.next] at hbox
  have he2 : intResult (2 * p.err) = some (2 * p.err) := intResult_eq_some (by omega)
  have hx : l.dy ≤ 2 * p.err → intResult (p.x0 + l.sx) = some (p.x0 + l.sx) := by
    intro hmove
    rw [if_pos hmove] at hbox
    exact intResult_eq_some (by omega)
  have hy : 2 * p.err ≤ l.dx → intResult (p.y0 + l.sy) = some (p.y0 + l.sy) := by
    intro hmove
    rw [if_pos hmove] at hbox
    exact intResult_eq_some (by omega)
  have herr : intResult (p.err + l.dy) = some (p.err + l.dy) := intResult_eq_some (by omega)
  have herr' : intResult (p.err + l.dx) = some (p.err + l.dx) := intResult_eq_some (by omega)
  have herr'' : intResult (p.err + l.dy + l.dx) = some (p.err + l.dy + l.dx) :=
    intResult_eq_some (by omega)
  by_cases hX : l.dy ≤ 2 * p.err
  · by_cases hY : 2 * p.err ≤ l.dx
    · simp [LinePen.step, LinePen.stepX, LinePen.stepY, LinePen.next, he2, hX, hY, hx hX, hy hY,
        herr, herr'']
    · simp [LinePen.step, LinePen.stepX, LinePen.stepY, LinePen.next, he2, hX, hY, hx hX, herr]
  · by_cases hY : 2 * p.err ≤ l.dx
    · simp [LinePen.step, LinePen.stepX, LinePen.stepY, LinePen.next, he2, hX, hY, hy hY, herr']
    · simp [LinePen.step, LinePen.stepX, LinePen.stepY, LinePen.next, he2, hX, hY]

/-- The points of a line from `(x, y)` on: `k` passes to the end. -/
structure DrawsTo (l : LineSpec) (x y x' y' : Int) (k : Nat) (pts : List (Int × Int)) : Prop where
  length : pts.length = k + 1
  first : pts.head? = some (x', y')
  last : pts.getLast? = some (l.x1, l.y1)
  adjacent : pts.IsChain Adjacent
  inBox : ∀ q ∈ pts, InBox x y l.x1 l.y1 q

theorem LinePen.At.lineLoop (hl : l.Ok x y) (k : Nat) (h : p.At l x y n)
    (hk : n + k = max l.dx (-l.dy)) :
    ∃ pts, DrawsTo l x y p.x0 p.y0 k pts ∧ ∀ fuel, k < fuel → lineLoop l fuel p = some pts := by
  induction k generalizing p n with
  | zero =>
    have hdone := (h.done_iff hl).mpr (by omega)
    refine ⟨[(p.x0, p.y0)], ⟨rfl, rfl, ?_, .singleton _, ?_⟩, fun fuel hfuel => ?_⟩
    · rw [hdone.1, hdone.2]
      rfl
    · simpa using h.inBox hl (by omega)
    · obtain ⟨fuel, rfl⟩ := Nat.exists_eq_add_of_lt hfuel
      rw [Nat.zero_add, DevOs.lineLoop, if_pos hdone]
  | succ k ih =>
    obtain ⟨pts, hpts, hrun⟩ := ih (h.next hl) (by push_cast at hk; omega)
    refine ⟨(p.x0, p.y0) :: pts, ⟨?_, rfl, ?_, ?_, ?_⟩, fun fuel hfuel => ?_⟩
    · rw [List.length_cons, hpts.length]
    · rw [List.getLast?_cons, hpts.last]
      rfl
    · obtain ⟨rest, rfl⟩ := List.head?_eq_some_iff.mp hpts.first
      exact List.isChain_cons_cons.mpr ⟨LinePen.adjacent_next hl, hpts.adjacent⟩
    · intro q hq
      obtain rfl | hq := List.mem_cons.mp hq
      · exact h.inBox hl (by omega)
      · exact hpts.inBox q hq
    · obtain ⟨fuel, rfl⟩ := Nat.exists_eq_add_of_lt hfuel
      have hnot : ¬ (p.x0 = l.x1 ∧ p.y0 = l.y1) := by
        rw [h.done_iff hl]
        omega
      rw [DevOs.lineLoop, if_neg hnot, h.step hl (by omega)]
      simp [hrun (k + 1 + fuel) (by omega)]

theorem gfxDrawLine_eq {x0 y0 x1 y1 : Int32} (hx : (x1.toInt - x0.toInt).natAbs < 2 ^ 29)
    (hy : (y1.toInt - y0.toInt).natAbs < 2 ^ 29) :
    ∃ l : LineSpec, l.Ok x0.toInt y0.toInt ∧ l.x1 = x1.toInt ∧ l.y1 = y1.toInt ∧
      l.dx = (x1.toInt - x0.toInt).natAbs ∧ -l.dy = (y1.toInt - y0.toInt).natAbs ∧
      ∀ fuel, gfxDrawLine fuel x0 y0 x1 y1 =
        lineLoop l fuel ⟨x0.toInt, y0.toInt, l.dx - -l.dy⟩ := by
  have hdx : (if x1 > x0 then x1.toInt - x0.toInt else x0.toInt - x1.toInt) =
      ((x1.toInt - x0.toInt).natAbs : Int) := by
    simp only [gt_iff_lt, Int32.lt_iff_toInt_lt]
    split <;> omega
  have hdy : (if y1 > y0 then y1.toInt - y0.toInt else y0.toInt - y1.toInt) =
      ((y1.toInt - y0.toInt).natAbs : Int) := by
    simp only [gt_iff_lt, Int32.lt_iff_toInt_lt]
    split <;> omega
  have hsign : ∀ a b : Int32, (if a < b then (1 : Int) else -1) = 1 ∨
      (if a < b then (1 : Int) else -1) = -1 := by
    intro a b
    split
    · exact .inl rfl
    · exact .inr rfl
  refine ⟨⟨x1.toInt, y1.toInt, (x1.toInt - x0.toInt).natAbs, -(y1.toInt - y0.toInt).natAbs,
    if x0 < x1 then 1 else -1, if y0 < y1 then 1 else -1⟩, ?_, rfl, rfl, rfl, neg_neg _, ?_⟩
  · refine ⟨by simp only; omega, by simp only; omega, ⟨hsign x0 x1, ?_⟩, ⟨hsign y0 y1, ?_⟩,
      ⟨⟨x0.le_toInt, x0.toInt_lt⟩, y0.le_toInt, y0.toInt_lt⟩,
      ⟨x1.le_toInt, x1.toInt_lt⟩, y1.le_toInt, y1.toInt_lt⟩
    · simp only [Int32.lt_iff_toInt_lt]
      split <;> omega
    · simp only [Int32.lt_iff_toInt_lt]
      split <;> omega
  · intro fuel
    generalize (x1.toInt - x0.toInt).natAbs = a at hdx hx
    generalize (y1.toInt - y0.toInt).natAbs = b at hdy hy
    have ha : intResult a = some (a : Int) := intResult_eq_some (by omega)
    have hb : intResult b = some (b : Int) := intResult_eq_some (by omega)
    have hnb : intResult (-(b : Int)) = some (-(b : Int)) := intResult_eq_some (by omega)
    have hab : intResult (a + -(b : Int)) = some (a + -(b : Int)) := intResult_eq_some (by omega)
    rw [gfxDrawLine, hdx, hdy]
    simp only [ha, hb, hnb, hab, Option.bind_eq_bind, Option.bind_some, neg_neg, sub_eq_add_neg]

/-- **`gfx_draw_line` draws the line.** -/
theorem gfxDrawLine_draws (x0 y0 x1 y1 : Int32) (hx : (x1.toInt - x0.toInt).natAbs < 2 ^ 29)
    (hy : (y1.toInt - y0.toInt).natAbs < 2 ^ 29) :
    ∃ pts, (∀ fuel, max (x1.toInt - x0.toInt).natAbs (y1.toInt - y0.toInt).natAbs < fuel →
        gfxDrawLine fuel x0 y0 x1 y1 = some pts) ∧
      pts.length = max (x1.toInt - x0.toInt).natAbs (y1.toInt - y0.toInt).natAbs + 1 ∧
      pts.head? = some (x0.toInt, y0.toInt) ∧ pts.getLast? = some (x1.toInt, y1.toInt) ∧
      pts.IsChain (fun p q => (q.1 - p.1).natAbs ≤ 1 ∧ (q.2 - p.2).natAbs ≤ 1) ∧
      ∀ q ∈ pts, InBox x0.toInt y0.toInt x1.toInt y1.toInt q := by
  obtain ⟨l, hl, hx1, hy1, hdx, hdy, hrun⟩ := gfxDrawLine_eq hx hy
  have hstart : (⟨x0.toInt, y0.toInt, l.dx - -l.dy⟩ : LinePen).At l x0.toInt y0.toInt 0 :=
    ⟨0, 0, .start hl.dx.1 hl.dy.1, by ring, by ring⟩
  obtain ⟨pts, hpts, hloop⟩ := hstart.lineLoop hl
    (max (x1.toInt - x0.toInt).natAbs (y1.toInt - y0.toInt).natAbs) (by omega)
  refine ⟨pts, fun fuel hfuel => ?_, hpts.length, hpts.first, ?_, hpts.adjacent, ?_⟩
  · rw [hrun, hloop fuel hfuel]
  · rw [hpts.last, hx1, hy1]
  · rw [← hx1, ← hy1]
    exact hpts.inBox

theorem gfxDrawLine_three_points :
    ∃ pts, gfxDrawLine 3 0 0 2 (-1) = some pts ∧ pts.length = 3 := by
  obtain ⟨pts, hrun, hlen, -⟩ := gfxDrawLine_draws 0 0 2 (-1) (by decide) (by decide)
  exact ⟨pts, hrun 3 (by decide), hlen⟩

end DevOs
