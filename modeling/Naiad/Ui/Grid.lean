import Mathlib.Data.Rat.Floor
import Naiad.Lib.Strips

/-!
# Naiad.Ui.Grid

The geometry of the gallery grid: the slice of tiles that is rendered, the tiles a rubber band
selects, the scroll offset that shows a tile, and the anchor that survives a reflow. Numbers are
exact rationals.

* `Layout`: tiles of one width in columns, with the gap between them.
* `computeGrid_cases`: what is computed from a width is a layout that fills it, or degenerate.
* `grid_agrees`: **the four functions agree on the layout**.
-/

namespace Naiad
namespace Ui

open Lib

/-! ## The functions -/

structure GridMetrics where
  columns : Int
  tileWidth : ℚ
  rowHeight : ℚ
deriving DecidableEq

def computeGrid (availWidth columns gap : ℚ) : GridMetrics :=
  if availWidth ≤ 0 ∨ columns ≤ 0 then ⟨1, 0, 0⟩
  else
    let cols := max 1 ⌊columns⌋
    let tileWidth := (availWidth - (cols - 1) * gap) / cols
    if tileWidth ≤ 0 then ⟨cols, 0, 0⟩ else ⟨cols, tileWidth, tileWidth + gap⟩

/-- Items from `startIndex` on and before `endIndex`. -/
structure GridSlice where
  startIndex : Int
  endIndex : Int
  offsetY : ℚ
  totalHeight : ℚ
deriving DecidableEq

def scrollTargetForIndex (index columns : Int) (rowHeight padTop currentScrollTop viewportH : ℚ) :
    ℚ :=
  if index < 0 ∨ columns ≤ 0 ∨ rowHeight ≤ 0 then currentScrollTop
  else
    let row := ⌊(index : ℚ) / columns⌋
    let rowTop := row * rowHeight + padTop
    let rowBottom := rowTop + rowHeight
    if rowTop < currentScrollTop then rowTop
    else if currentScrollTop + viewportH < rowBottom then rowBottom - viewportH
    else currentScrollTop

def computeWindow (itemCount columns : Int) (rowHeight scrollTop viewportH : ℚ)
    (overscanRows : Int) : GridSlice :=
  if itemCount ≤ 0 ∨ columns ≤ 0 ∨ rowHeight ≤ 0 then ⟨0, 0, 0, 0⟩
  else
    let totalRows := ⌈(itemCount : ℚ) / columns⌉
    let totalHeight := totalRows * rowHeight
    let firstVisibleRow := ⌊max 0 scrollTop / rowHeight⌋
    let visibleRows := ⌈viewportH / rowHeight⌉
    let startRow := min (max 0 (firstVisibleRow - overscanRows)) totalRows
    let endRow := min totalRows (firstVisibleRow + visibleRows + overscanRows)
    ⟨startRow * columns, min itemCount (endRow * columns), startRow * rowHeight, totalHeight⟩

/-- A row by its first item, and where in it the viewport's center line falls. -/
structure ScrollAnchor where
  index : Int
  offsetFraction : ℚ
deriving DecidableEq

def anchorForViewport (metrics : GridMetrics) (scrollTop viewportH padTop : ℚ) (itemCount : Int) :
    Option ScrollAnchor :=
  if itemCount ≤ 0 ∨ metrics.columns ≤ 0 ∨ metrics.rowHeight ≤ 0 then none
  else
    let totalRows := ⌈(itemCount : ℚ) / metrics.columns⌉
    let centerY := scrollTop + viewportH / 2 - padTop
    let row := min (totalRows - 1) (max 0 ⌊centerY / metrics.rowHeight⌋)
    let offsetFraction := min 1 (max 0 (centerY / metrics.rowHeight - row))
    some ⟨row * metrics.columns, offsetFraction⟩

def scrollTopForAnchor (anchor : ScrollAnchor) (metrics : GridMetrics) (viewportH padTop : ℚ)
    (itemCount : Int) : ℚ :=
  if itemCount ≤ 0 ∨ metrics.columns ≤ 0 ∨ metrics.rowHeight ≤ 0 then 0
  else
    let row := ⌊(anchor.index : ℚ) / metrics.columns⌋
    let centerY := (row + anchor.offsetFraction) * metrics.rowHeight
    max 0 (centerY + padTop - viewportH / 2)

/-- Two opposite corners. -/
structure Band where
  x1 : ℚ
  y1 : ℚ
  x2 : ℚ
  y2 : ℚ

/-- `for (let k = lo; k <= hi; k++)` -/
def loopRange (lo hi : Int) : List Int := (List.range (hi + 1 - lo).toNat).map fun k : Nat => lo + (k : Int)

def rectToIndices (rect : Band) (metrics : GridMetrics) (gap : ℚ) (itemCount : Int) : List Int :=
  if metrics.columns ≤ 0 ∨ metrics.tileWidth ≤ 0 ∨ metrics.rowHeight ≤ 0 ∨ itemCount ≤ 0 then []
  else
    let left := min rect.x1 rect.x2
    let right := max rect.x1 rect.x2
    let top := min rect.y1 rect.y2
    let bottom := max rect.y1 rect.y2
    let stride := metrics.tileWidth + gap
    let colFrom := max 0 ⌈(left - metrics.tileWidth) / stride⌉
    let colTo := min (metrics.columns - 1) ⌊right / stride⌋
    let rowFrom := max 0 ⌈(top - metrics.tileWidth) / metrics.rowHeight⌉
    let rowTo := ⌊bottom / metrics.rowHeight⌋
    if colTo < colFrom ∨ rowTo < rowFrom then []
    else
      (loopRange rowFrom rowTo).flatMap fun r =>
        (loopRange colFrom colTo).filterMap fun c =>
          if r * metrics.columns + c < itemCount then some (r * metrics.columns + c) else none

def minOverscan : Int := 2

/-- A full viewport of rows each way. -/
def overscanRows (metrics : GridMetrics) (clientHeight : ℚ) : Int :=
  if 0 < metrics.rowHeight then max minOverscan ⌈clientHeight / metrics.rowHeight⌉ else minOverscan

/-! ## The layout -/

/-- Square tiles in rows of `columns`. -/
structure Layout where
  columns : Int
  tileWidth : ℚ
  gap : ℚ
  columns_pos : 0 < columns
  tileWidth_pos : 0 < tileWidth
  advances : 0 < tileWidth + gap

namespace Layout

variable (g : Layout)

def stride : ℚ := g.tileWidth + g.gap

def metrics : GridMetrics := ⟨g.columns, g.tileWidth, g.stride⟩

/-- Column and row of a tile. -/
def col (i : Int) : Int := i % g.columns

def row (i : Int) : Int := i / g.columns

/-- The rows it takes for so many items. -/
def rows (itemCount : Int) : Int := ⌈(itemCount : ℚ) / g.columns⌉

/-- The row of the item, with the gap beneath it, meets the viewport. -/
def RowMeets (i : Int) (scrollTop viewportH : ℚ) : Prop :=
  scrollTop ≤ g.row i * g.stride + g.stride ∧ g.row i * g.stride ≤ scrollTop + viewportH

/-- The tile meets the rectangle. -/
def TileMeets (i : Int) (rect : Band) : Prop :=
  (min rect.x1 rect.x2 ≤ g.col i * g.stride + g.tileWidth ∧
      g.col i * g.stride ≤ max rect.x1 rect.x2) ∧
    (min rect.y1 rect.y2 ≤ g.row i * g.stride + g.tileWidth ∧
      g.row i * g.stride ≤ max rect.y1 rect.y2)

theorem stride_pos : 0 < g.stride := g.advances

theorem shown : ¬(g.metrics.columns ≤ 0 ∨ g.metrics.rowHeight ≤ 0) :=
  not_or.2 ⟨g.columns_pos.not_ge, g.stride_pos.not_ge⟩

theorem col_nonneg (i : Int) : 0 ≤ g.col i := Int.emod_nonneg i g.columns_pos.ne'

theorem col_lt (i : Int) : g.col i < g.columns := Int.emod_lt_of_pos i g.columns_pos

theorem row_col (i : Int) : g.row i * g.columns + g.col i = i := Int.ediv_mul_add_emod i g.columns

theorem row_nonneg {i : Int} (hi : 0 ≤ i) : 0 ≤ g.row i := Int.ediv_nonneg hi g.columns_pos.le

theorem row_lt_rows {i itemCount : Int} (hi : i < itemCount) : g.row i < g.rows itemCount :=
  div_lt_rows g.columns_pos hi

end Layout

/-- What is computed from a width is degenerate, or a layout whose rows fill it. -/
theorem computeGrid_cases (availWidth columns : ℚ) {gap : ℚ} (hgap : 0 ≤ gap) :
    ((computeGrid availWidth columns gap).tileWidth = 0 ∧
        (computeGrid availWidth columns gap).rowHeight = 0) ∨
      ∃ g : Layout, g.gap = gap ∧ computeGrid availWidth columns gap = g.metrics ∧
        g.columns * g.tileWidth + (g.columns - 1) * gap = availWidth := by
  unfold computeGrid
  by_cases hnone : availWidth ≤ 0 ∨ columns ≤ 0
  · rw [if_pos hnone]
    exact .inl ⟨rfl, rfl⟩
  rw [if_neg hnone]
  have hcols : (1 : Int) ≤ max 1 ⌊columns⌋ := le_max_left _ _
  generalize max 1 ⌊columns⌋ = cols at hcols
  simp only
  by_cases hwidth : (availWidth - (cols - 1) * gap) / cols ≤ 0
  · rw [if_pos hwidth]
    exact .inl ⟨rfl, rfl⟩
  · rw [if_neg hwidth]
    have hpos := not_le.1 hwidth
    refine .inr ⟨⟨cols, _, gap, hcols, hpos, add_pos_of_pos_of_nonneg hpos hgap⟩, rfl, rfl, ?_⟩
    have hne : (cols : ℚ) ≠ 0 := Int.cast_ne_zero.2 (by omega)
    simp only
    rw [mul_div_cancel₀ _ hne, sub_add_cancel]

theorem overscanRows_pos (metrics : GridMetrics) (clientHeight : ℚ) :
    1 ≤ overscanRows metrics clientHeight := by
  unfold overscanRows minOverscan
  split <;> omega

section

variable (g : Layout) {i itemCount : Int}

/-! ## The rendered slice -/

theorem computeWindow_eq (hn : 0 < itemCount) (scrollTop viewportH : ℚ) (overscan : Int) :
    computeWindow itemCount g.metrics.columns g.metrics.rowHeight scrollTop viewportH overscan =
      ⟨min (max 0 (⌊max 0 scrollTop / g.stride⌋ - overscan)) (g.rows itemCount) * g.columns,
        min itemCount (min (g.rows itemCount)
          (⌊max 0 scrollTop / g.stride⌋ + ⌈viewportH / g.stride⌉ + overscan) * g.columns),
        (min (max 0 (⌊max 0 scrollTop / g.stride⌋ - overscan)) (g.rows itemCount) : Int) * g.stride,
        g.rows itemCount * g.stride⟩ :=
  if_neg (not_or.2 ⟨hn.not_ge, g.shown⟩)

theorem computeWindow_contains {scrollTop viewportH : ℚ} {overscan : Int} (h0 : 0 ≤ i)
    (hi : i < itemCount) (hover : 1 ≤ overscan) (hmeets : g.RowMeets i scrollTop viewportH) :
    (computeWindow itemCount g.metrics.columns g.metrics.rowHeight scrollTop viewportH
        overscan).startIndex ≤ i ∧
      i < (computeWindow itemCount g.metrics.columns g.metrics.rowHeight scrollTop viewportH
        overscan).endIndex := by
  have hrow := g.row_nonneg h0
  have hrows := g.row_lt_rows hi
  have hpos : (0 : ℚ) ≤ g.row i * g.stride :=
    mul_nonneg (Int.cast_nonneg hrow) g.stride_pos.le
  obtain ⟨hfirst, hlast⟩ : ⌊max 0 scrollTop / g.stride⌋ - 1 ≤ g.row i ∧
      g.row i ≤ ⌊max 0 scrollTop / g.stride⌋ + ⌈viewportH / g.stride⌉ :=
    strip_window g.stride_pos (max_le (by linarith [g.stride_pos]) hmeets.1)
      (hmeets.2.trans (by linarith [le_max_right 0 scrollTop]))
  rw [computeWindow_eq g (by omega)]
  generalize ⌊max 0 scrollTop / g.stride⌋ = first at hfirst hlast
  generalize ⌈viewportH / g.stride⌉ = visible at hlast
  generalize g.rows itemCount = rows at hrows
  have hstart : min (max 0 (first - overscan)) rows ≤ g.row i := by omega
  have hend : g.row i + 1 ≤ min rows (first + visible + overscan) := by omega
  have hitem := g.row_col i
  have hcol := g.col_nonneg i
  have hlt := g.col_lt i
  have hbefore := Int.mul_le_mul_of_nonneg_right hstart g.columns_pos.le
  have hafter := Int.mul_le_mul_of_nonneg_right hend g.columns_pos.le
  rw [Int.add_mul, Int.one_mul] at hafter
  constructor
  · calc _ ≤ g.row i * g.columns := hbefore
      _ ≤ i := by omega
  · refine lt_min hi ?_
    calc i < g.row i * g.columns + g.columns := by omega
      _ ≤ _ := hafter

/-! ## The rubber band -/

theorem mem_loopRange {lo hi k : Int} : k ∈ loopRange lo hi ↔ lo ≤ k ∧ k ≤ hi := by
  unfold loopRange
  rw [List.mem_map]
  constructor
  · intro ⟨n, hn, hk⟩
    rw [List.mem_range] at hn
    omega
  · intro h
    exact ⟨(k - lo).toNat, List.mem_range.2 (by omega), by omega⟩

theorem pairwise_loopRange (lo hi : Int) : (loopRange lo hi).Pairwise (· < ·) := by
  unfold loopRange
  rw [List.pairwise_map]
  refine List.pairwise_lt_range.imp ?_
  intro a b hab
  omega

theorem loopRange_eq_nil {lo hi : Int} (h : hi < lo) : loopRange lo hi = [] := by
  unfold loopRange
  rw [Int.toNat_of_nonpos (by omega)]
  rfl

/-- The columns and rows of the loops. -/
def Layout.bandCols (rect : Band) : List Int :=
  loopRange (max 0 ⌈(min rect.x1 rect.x2 - g.tileWidth) / g.stride⌉)
    (min (g.columns - 1) ⌊max rect.x1 rect.x2 / g.stride⌋)

def Layout.bandRows (rect : Band) : List Int :=
  loopRange (max 0 ⌈(min rect.y1 rect.y2 - g.tileWidth) / g.stride⌉)
    ⌊max rect.y1 rect.y2 / g.stride⌋

theorem mem_bandCols {rect : Band} {c : Int} :
    c ∈ g.bandCols rect ↔ (0 ≤ c ∧ c < g.columns) ∧
      min rect.x1 rect.x2 ≤ c * g.stride + g.tileWidth ∧ c * g.stride ≤ max rect.x1 rect.x2 := by
  rw [Layout.bandCols, mem_loopRange, strip_meets_iff g.stride_pos]
  omega

theorem mem_bandRows {rect : Band} {r : Int} :
    r ∈ g.bandRows rect ↔ 0 ≤ r ∧
      min rect.y1 rect.y2 ≤ r * g.stride + g.tileWidth ∧ r * g.stride ≤ max rect.y1 rect.y2 := by
  rw [Layout.bandRows, mem_loopRange, strip_meets_iff g.stride_pos]
  omega

/-- An empty loop needs no guard. -/
theorem rectToIndices_eq (rect : Band) (hn : 0 < itemCount) :
    rectToIndices rect g.metrics g.gap itemCount =
      (g.bandRows rect).flatMap fun r => (g.bandCols rect).filterMap fun c =>
        if r * g.columns + c < itemCount then some (r * g.columns + c) else none := by
  have hguard : ¬(g.metrics.columns ≤ 0 ∨ g.metrics.tileWidth ≤ 0 ∨ g.metrics.rowHeight ≤ 0 ∨
      itemCount ≤ 0) := by
    have hwidth : ¬g.metrics.tileWidth ≤ 0 := g.tileWidth_pos.not_ge
    obtain ⟨hcolumns, hheight⟩ := not_or.1 g.shown
    simp only [hcolumns, hwidth, hheight, false_or]
    omega
  unfold rectToIndices
  rw [if_neg hguard]
  dsimp only
  split
  · rename_i hempty
    rcases hempty with hcols | hrows
    · have hnil : g.bandCols rect = [] := loopRange_eq_nil hcols
      simp [hnil]
    · have hnil : g.bandRows rect = [] := loopRange_eq_nil hrows
      simp [hnil]
  · rfl

theorem rectToIndices_none (rect : Band) (hn : itemCount ≤ 0) :
    rectToIndices rect g.metrics g.gap itemCount = [] :=
  if_pos (.inr (.inr (.inr hn)))

theorem mem_rectToIndices (rect : Band) :
    i ∈ rectToIndices rect g.metrics g.gap itemCount ↔
      (0 ≤ i ∧ i < itemCount) ∧ g.TileMeets i rect := by
  rcases le_or_gt itemCount 0 with hn | hn
  · rw [rectToIndices_none g rect hn]
    refine iff_of_false List.not_mem_nil ?_
    omega
  rw [rectToIndices_eq g rect hn, List.mem_flatMap]
  simp only [List.mem_filterMap, Option.ite_none_right_eq_some, Option.some.injEq, mem_bandRows,
    mem_bandCols]
  constructor
  · intro ⟨r, hr, c, hc, hlt, heq⟩
    obtain ⟨hrow, hcol⟩ := @strip_div r c g.columns hc.1.1 hc.1.2
    rw [heq] at hrow hcol
    have hr' : g.row i = r := hrow
    have hc' : g.col i = c := hcol
    have hpos : 0 ≤ r * g.columns := Int.mul_nonneg hr.1 g.columns_pos.le
    refine ⟨by omega, ?_⟩
    rw [Layout.TileMeets, hr', hc']
    exact ⟨hc.2, hr.2⟩
  · intro ⟨hi, hcols, hrows⟩
    refine ⟨g.row i, ⟨g.row_nonneg hi.1, hrows⟩, g.col i, ⟨⟨g.col_nonneg i, g.col_lt i⟩, hcols⟩, ?_⟩
    rw [g.row_col]
    exact ⟨hi.2, rfl⟩

theorem pairwise_rectToIndices (rect : Band) :
    (rectToIndices rect g.metrics g.gap itemCount).Pairwise (· < ·) := by
  rcases le_or_gt itemCount 0 with hn | hn
  · rw [rectToIndices_none g rect hn]
    exact List.Pairwise.nil
  rw [rectToIndices_eq g rect hn, List.pairwise_flatMap]
  constructor
  · intro r _
    rw [List.pairwise_filterMap]
    refine (pairwise_loopRange _ _).imp ?_
    intro c c' hlt i hi i' hi'
    obtain ⟨_, heq⟩ := Option.ite_none_right_eq_some.1 hi
    obtain ⟨_, heq'⟩ := Option.ite_none_right_eq_some.1 hi'
    cases heq
    cases heq'
    omega
  · refine (pairwise_loopRange _ _).imp ?_
    intro r r' hlt i hi i' hi'
    simp only [List.mem_filterMap, mem_bandCols, Option.ite_none_right_eq_some,
      Option.some.injEq] at hi hi'
    obtain ⟨c, hc, _, rfl⟩ := hi
    obtain ⟨c', hc', _, rfl⟩ := hi'
    have hrow : (r + 1) * g.columns ≤ r' * g.columns :=
      Int.mul_le_mul_of_nonneg_right (by omega) g.columns_pos.le
    rw [Int.add_mul, Int.one_mul] at hrow
    omega

/-! ## Scrolling -/

theorem scrollTarget_shows {index : Int} {padTop scrollTop viewportH : ℚ} (h0 : 0 ≤ index)
    (hfits : g.stride ≤ viewportH) :
    scrollTargetForIndex index g.metrics.columns g.metrics.rowHeight padTop scrollTop viewportH ≤
        g.row index * g.stride + padTop ∧
      g.row index * g.stride + padTop + g.stride ≤
        scrollTargetForIndex index g.metrics.columns g.metrics.rowHeight padTop scrollTop viewportH +
          viewportH := by
  have hrow : ⌊(index : ℚ) / g.metrics.columns⌋ = g.row index := floor_div_eq g.columns_pos
  have hheight : g.metrics.rowHeight = g.stride := rfl
  unfold scrollTargetForIndex
  rw [if_neg (not_or.2 ⟨h0.not_gt, g.shown⟩), hrow, hheight]
  dsimp only
  split
  · exact ⟨le_rfl, by linarith⟩
  · split
    · exact ⟨by linarith, by linarith⟩
    · exact ⟨by linarith, by linarith⟩

/-- The line is put back where it was, by its row and its place in the row. -/
theorem scrollTopForAnchor_anchorForViewport {padTop scrollTop viewportH : ℚ} (hn : 0 < itemCount)
    (h0 : 0 ≤ scrollTop) (hover : 0 ≤ scrollTop + viewportH / 2 - padTop)
    (hunder : scrollTop + viewportH / 2 - padTop ≤ g.rows itemCount * g.stride) :
    ∃ anchor, anchorForViewport g.metrics scrollTop viewportH padTop itemCount = some anchor ∧
      scrollTopForAnchor anchor g.metrics viewportH padTop itemCount = scrollTop := by
  have hguard := not_or.2 ⟨hn.not_ge, g.shown⟩
  have hstride := g.stride_pos
  refine ⟨_, if_neg hguard, (if_neg hguard).trans ?_⟩
  have hheight : g.metrics.rowHeight = g.stride := rfl
  have hcolumns : g.metrics.columns = g.columns := rfl
  have hrows : ⌈(itemCount : ℚ) / g.columns⌉ = g.rows itemCount := rfl
  rw [hheight, hcolumns, hrows]
  dsimp only
  generalize hcenter : scrollTop + viewportH / 2 - padTop = centerY at hover hunder
  have hq0 : 0 ≤ centerY / g.stride := div_nonneg hover hstride.le
  have hq1 : centerY / g.stride ≤ g.rows itemCount := (div_le_iff₀ hstride).2 hunder
  have hfloor0 : 0 ≤ ⌊centerY / g.stride⌋ := Int.floor_nonneg.2 hq0
  rw [max_eq_right hfloor0]
  generalize hr : min (g.rows itemCount - 1) ⌊centerY / g.stride⌋ = r
  -- the row under the line, the last one where the line is at the end of the content
  have hle : (r : ℚ) ≤ centerY / g.stride := by
    have : (r : ℚ) ≤ ⌊centerY / g.stride⌋ := Int.cast_le.2 (by omega)
    exact this.trans (Int.floor_le _)
  have hlt : centerY / g.stride - r ≤ 1 := by
    have hnext := Int.lt_floor_add_one (centerY / g.stride)
    rcases min_choice (g.rows itemCount - 1) ⌊centerY / g.stride⌋ with hlast | hmid
    · rw [hlast] at hr
      rw [← hr]
      push_cast
      linarith
    · rw [hmid] at hr
      rw [← hr]
      linarith
  rw [max_eq_right (sub_nonneg.2 hle), min_eq_right hlt, floor_div_eq g.columns_pos,
    Int.mul_ediv_cancel _ g.columns_pos.ne', strip_position hstride, ← hcenter]
  rw [max_eq_right (by linarith)]
  ring

end

/-- **For every layout and number of items: the slice contains every item whose row meets the
viewport, with a row of overscan or more; a rubber band selects exactly the tiles it meets, in
order; a row that fits the viewport lies in it after scrolling to one of its items; and the anchor of
a viewport whose center is over the content gives its scroll offset back.** -/
theorem grid_agrees (g : Layout) (itemCount : Int) :
    (∀ (scrollTop viewportH : ℚ) (overscan i : Int), 1 ≤ overscan → 0 ≤ i → i < itemCount →
        g.RowMeets i scrollTop viewportH →
        (computeWindow itemCount g.metrics.columns g.metrics.rowHeight scrollTop viewportH
            overscan).startIndex ≤ i ∧
          i < (computeWindow itemCount g.metrics.columns g.metrics.rowHeight scrollTop viewportH
            overscan).endIndex) ∧
      (∀ rect : Band, (∀ i, i ∈ rectToIndices rect g.metrics g.gap itemCount ↔
          (0 ≤ i ∧ i < itemCount) ∧ g.TileMeets i rect) ∧
        (rectToIndices rect g.metrics g.gap itemCount).Pairwise (· < ·)) ∧
      (∀ (index : Int) (padTop scrollTop viewportH : ℚ), 0 ≤ index →
        g.metrics.rowHeight ≤ viewportH →
        let target := scrollTargetForIndex index g.metrics.columns g.metrics.rowHeight padTop scrollTop
          viewportH
        target ≤ g.row index * g.metrics.rowHeight + padTop ∧
          g.row index * g.metrics.rowHeight + padTop + g.metrics.rowHeight ≤ target + viewportH) ∧
      (∀ padTop scrollTop viewportH : ℚ, 0 < itemCount → 0 ≤ scrollTop →
        0 ≤ scrollTop + viewportH / 2 - padTop →
        scrollTop + viewportH / 2 - padTop ≤ g.rows itemCount * g.metrics.rowHeight →
        ∃ anchor, anchorForViewport g.metrics scrollTop viewportH padTop itemCount = some anchor ∧
          scrollTopForAnchor anchor g.metrics viewportH padTop itemCount = scrollTop) :=
  ⟨fun _ _ _ _ hover h0 hi hmeets => computeWindow_contains g h0 hi hover hmeets,
    fun rect => ⟨fun _ => mem_rectToIndices g rect, pairwise_rectToIndices g rect⟩,
    fun _ _ _ _ h0 hfits => scrollTarget_shows g h0 hfits,
    fun _ _ _ hn h0 hover hunder => scrollTopForAnchor_anchorForViewport g hn h0 hover hunder⟩

/-- Ten tiles in three columns; the band touches the last. -/
example : rectToIndices ⟨0, 330, 320, 340⟩ ⟨3, 100, 110⟩ 10 10 = [9] := by decide +kernel

end Ui
end Naiad
