import Mathlib.Data.List.Induction
import Mathlib.Data.List.ProdSigma
import Omen.Library.Painting
import Omen.Text.Memmove

/- The text console on the framebuffer (`fb.c`), against a page of characters with a cursor. -/
namespace OmenConsole
open ByteMemory OmenText Painting

/-- The globals that `init_framebuffer` sets, and the memory at the font table. There is room for
    a character; nothing in the source checks that. -/
structure Framebuffer where
  vmem : Nat
  width : Nat
  height : Nat
  font : Int → UInt8
  wide : 8 ≤ width
  tall : 16 ≤ height

def fc : UInt32 := 0

def bc : UInt32 := 0xffffffff

def tabsize : Nat := 8

structure Console where
  mem : Mem
  posx : Nat
  posy : Nat

section Code
variable (g : Framebuffer)

def storeWord (m : Mem) (i : Nat) (col : UInt32) : Mem := putLE m (g.vmem + 4 * i) 4 col.toNat

def clearscreen (m : Mem) (col : UInt32) : Mem :=
  (List.range (g.width * g.height)).foldl (fun m i => storeWord g m i col) m

def putpixel (m : Mem) (x y : Nat) (col : UInt32) : Mem := storeWord g m (x + y * g.width) col

def scroll (m : Mem) : Mem :=
  let y0 := g.height - 16 - g.height % 16
  let n := (g.width * g.height - g.width * 16) * 4
  let m := memmove m g.vmem (g.vmem + 4 * (g.width * 16)) n
  ((List.range (16 + g.height % 16)).product (List.range g.width)).foldl
    (fun m p => putpixel g m p.2 (y0 + p.1) bc) m

def glyph (ch : UInt8) (x y : Nat) : Bool :=
  (g.font (ch.toInt8.toInt * 16 + y)).toNat.testBit (7 - x)

def drawGlyph (m : Mem) (ch : UInt8) (x0 y0 : Nat) : Mem :=
  ((List.range 16).product (List.range 8)).foldl
    (fun m p => putpixel g m (x0 + p.2) (y0 + p.1) (if glyph g ch p.2 p.1 then fc else bc)) m

/-- The end of a line, which stands in the source for a newline and for the last column. -/
def newLine (c : Console) : Console :=
  if (g.height - g.height % 16) / 16 - 1 ≤ c.posy then ⟨scroll g c.mem, 0, c.posy⟩
  else ⟨c.mem, 0, c.posy + 1⟩

def putGlyph (c : Console) (ch : UInt8) : Console :=
  let drawn : Console := { c with mem := drawGlyph g c.mem ch (c.posx * 8) (c.posy * 16) }
  if (g.width - g.width % 8) / 8 - 1 ≤ c.posx then newLine g drawn
  else { drawn with posx := c.posx + 1 }

/-- The cursor one step back; nothing at the first place of the screen. -/
def back (c : Console) : Option Console :=
  if c.posx = 0 then
    if c.posy = 0 then none
    else some { c with posx := (g.width - g.width % 8) / 8 - 1, posy := c.posy - 1 }
  else some { c with posx := c.posx - 1 }

def putchar (c : Console) (ch : UInt8) : Console :=
  if ch = 10 then newLine g c
  else if ch = 9 then (List.range tabsize).foldl (fun c _ => putGlyph g c 32) c
  else if ch = 8 then
    match back g c with
    | none => c
    | some c =>
      let c := putGlyph g c 32
      (back g c).getD c
  else putGlyph g c ch

end Code

/- A page of characters; a place where nothing has been put is blank. -/
@[ext]
structure Page (cols rows : Nat) where
  cells : Nat → Nat → Option UInt8
  x : Nat
  y : Nat
  inX : x < cols
  inY : y < rows

namespace Page
variable {cols rows : Nat}

def empty (someX : 0 < cols) (someY : 0 < rows) : Page cols rows :=
  ⟨fun _ _ => none, 0, 0, someX, someY⟩

def newLine (p : Page cols rows) : Page cols rows :=
  if last : p.y + 1 = rows then
    ⟨fun x y => if y + 1 = rows then none else p.cells x (y + 1), 0, p.y,
      Nat.zero_lt_of_lt p.inX, p.inY⟩
  else ⟨p.cells, 0, p.y + 1, Nat.zero_lt_of_lt p.inX, Nat.lt_of_le_of_ne p.inY last⟩

def set (p : Page cols rows) (ch : UInt8) : Page cols rows :=
  { p with cells := fun x y => if x = p.x ∧ y = p.y then some ch else p.cells x y }

def put (p : Page cols rows) (ch : UInt8) : Page cols rows :=
  if last : p.x + 1 = cols then (p.set ch).newLine
  else { p.set ch with x := p.x + 1, inX := Nat.lt_of_le_of_ne p.inX last }

def back (p : Page cols rows) : Page cols rows :=
  if p.x = 0 then { p with
    x := cols - 1, y := p.y - 1
    inX := Nat.sub_lt (Nat.zero_lt_of_lt p.inX) Nat.zero_lt_one
    inY := Nat.lt_of_le_of_lt (Nat.sub_le _ _) p.inY }
  else { p with x := p.x - 1, inX := Nat.lt_of_le_of_lt (Nat.sub_le _ _) p.inX }

def rubOut (p : Page cols rows) : Page cols rows :=
  if p.x = 0 ∧ p.y = 0 then p else p.back.set 32

def type (p : Page cols rows) (ch : UInt8) : Page cols rows :=
  if ch = 10 then p.newLine
  else if ch = 9 then (List.range 8).foldl (fun p _ => p.put 32) p
  else if ch = 8 then p.rubOut
  else p.put ch

end Page

namespace Framebuffer

def cols (g : Framebuffer) : Nat := g.width / 8

def rows (g : Framebuffer) : Nat := g.height / 16

theorem cols_eq (g : Framebuffer) : g.cols = (g.width - g.width % 8) / 8 ∧ g.cols * 8 ≤ g.width ∧
    0 < g.cols := by
  have wide := g.wide
  rw [cols]
  omega

theorem rows_eq (g : Framebuffer) : g.rows = (g.height - g.height % 16) / 16 ∧
    g.rows * 16 ≤ g.height ∧ 0 < g.rows := by
  have tall := g.tall
  rw [rows]
  omega

end Framebuffer

def word (g : Framebuffer) (m : Mem) (i : Nat) : UInt32 := UInt32.ofNat (getLE m (g.vmem + 4 * i) 4)

def pixel (g : Framebuffer) (m : Mem) (x y : Nat) : UInt32 := word g m (x + y * g.width)

def shade (g : Framebuffer) (cell : Option UInt8) (x y : Nat) : UInt32 :=
  match cell with
  | none => bc
  | some ch => if glyph g ch x y then fc else bc

def Apart (g : Framebuffer) (m m' : Mem) : Prop :=
  ∀ a, a < g.vmem ∨ g.vmem + 4 * (g.width * g.height) ≤ a → m' a = m a

/-- The screen shows the page, pixel for pixel, and nothing else has changed in memory. -/
structure Shown (g : Framebuffer) (before : Mem) (c : Console) (p : Page g.cols g.rows) : Prop where
  apart : Apart g before c.mem
  posx : c.posx = p.x
  posy : c.posy = p.y
  picture : ∀ x y, x < g.cols * 8 → y < g.rows * 16 →
    pixel g c.mem x y = shade g (p.cells (x / 8) (y / 16)) (x % 8) (y % 16)

section Pixels
variable {g : Framebuffer} {m : Mem} {x y : Nat}

theorem word_storeWord (m : Mem) (i j : Nat) (col : UInt32) :
    word g (storeWord g m i col) j = if j = i then col else word g m j := by
  rw [word, storeWord]
  by_cases same : j = i
  · rw [if_pos same, same, getLE_putLE _ _ _ _ col.toNat_lt, UInt32.ofNat_toNat]
  · rw [if_neg same, getLE_putLE_apart _ _ (by omega), word]

theorem index_injective {w x y x' y' : Nat} (inX : x < w) (inX' : x' < w)
    (same : x + y * w = x' + y' * w) : x = x' ∧ y = y' := by
  have column : x = x' := by
    have := congrArg (· % w) same
    simpa [Nat.mod_eq_of_lt inX, Nat.mod_eq_of_lt inX'] using this
  subst column
  exact ⟨rfl, Nat.eq_of_mul_eq_mul_right (Nat.zero_lt_of_lt inX) (Nat.add_left_cancel same)⟩

variable (g) in
def words : Cells Mem Nat UInt32 :=
  ⟨word g, storeWord g, fun _ => True, fun m p q v _ _ => word_storeWord m p q v⟩

variable (g) in
def pixels : Cells Mem (Nat × Nat) UInt32 where
  get m p := pixel g m p.1 p.2
  put m p v := putpixel g m p.1 p.2 v
  inside p := p.1 < g.width
  get_put m p q v inP inQ := by
    rw [pixel, putpixel, word_storeWord]
    by_cases same : q = p
    · rw [if_pos same, same, if_pos rfl]
    · rw [if_neg same, if_neg, pixel]
      intro index
      obtain ⟨first, second⟩ := index_injective inQ inP index
      exact same (Prod.ext first second)

theorem index_lt {w h : Nat} (inX : x < w) (inY : y < h) : x + y * w < w * h := by
  calc x + y * w < w + y * w := by omega
    _ = w * (y + 1) := by rw [Nat.mul_add, Nat.mul_comm y w, Nat.mul_one, Nat.add_comm]
    _ ≤ w * h := Nat.mul_le_mul_left w inY

theorem storeWord_apart {before : Mem} {i : Nat} (col : UInt32) (apart : Apart g before m)
    (inside : i < g.width * g.height) : Apart g before (storeWord g m i col) := by
  intro a out
  rw [storeWord, putLE, if_neg (by omega)]
  exact apart a out

def rectangle (x0 y0 w h : Nat) : List (Nat × Nat) :=
  ((List.range h).product (List.range w)).map fun p => (x0 + p.2, y0 + p.1)

theorem mem_rectangle {x0 y0 w h : Nat} :
    (x, y) ∈ rectangle x0 y0 w h ↔ (x0 ≤ x ∧ x < x0 + w) ∧ y0 ≤ y ∧ y < y0 + h := by
  simp only [rectangle, List.mem_map, Prod.exists, List.pair_mem_product, List.mem_range,
    Prod.mk.injEq]
  constructor
  · rintro ⟨b, a, ⟨low, left⟩, rfl, rfl⟩
    omega
  · intro inside
    exact ⟨y - y0, x - x0, by omega, by omega, by omega⟩

theorem drawGlyph_eq (m : Mem) (ch : UInt8) (x0 y0 : Nat) : drawGlyph g m ch x0 y0 =
    paint (pixels g) (fun q => if glyph g ch (q.1 - x0) (q.2 - y0) then fc else bc)
      (rectangle x0 y0 8 16) m := by
  rw [paint, rectangle, List.foldl_map]
  simp only [Nat.add_sub_cancel_left]
  rfl

theorem drawGlyph_pixel {ch : UInt8} {posx posy : Nat} (inX : x < g.width)
    (column : posx * 8 + 8 ≤ g.width) :
    pixel g (drawGlyph g m ch (posx * 8) (posy * 16)) x y =
      if x / 8 = posx ∧ y / 16 = posy then (if glyph g ch (x % 8) (y % 16) then fc else bc)
      else pixel g m x y := by
  have painted := @get_paint _ _ _ _ (pixels g)
    (fun q => if glyph g ch (q.1 - posx * 8) (q.2 - posy * 16) then fc else bc)
    (rectangle (posx * 8) (posy * 16) 8 16) m (x, y) (fun q member => by
      have := mem_rectangle.mp member
      exact Nat.lt_of_lt_of_le this.1.2 column) inX
  rw [← drawGlyph_eq] at painted
  refine painted.trans ?_
  by_cases here : x / 8 = posx ∧ y / 16 = posy
  · rw [if_pos (mem_rectangle.mpr (by omega)), if_pos here,
      show x % 8 = x - posx * 8 by omega, show y % 16 = y - posy * 16 by omega]
  · rw [if_neg fun member => here (by have := mem_rectangle.mp member; omega), if_neg here]
    rfl

theorem rectangle_apart {before : Mem} {value : Nat × Nat → UInt32} {x0 y0 w h : Nat}
    (apart : Apart g before m) (inX : x0 + w ≤ g.width) (inY : y0 + h ≤ g.height) :
    Apart g before (paint (pixels g) value (rectangle x0 y0 w h) m) := by
  refine paint_keeps (fun m p v member kept => ?_) apart
  have inside := mem_rectangle.mp member
  exact storeWord_apart v kept (index_lt (by omega) (by omega))

theorem scroll_eq (m : Mem) : scroll g m = paint (pixels g) (fun _ => bc)
    (rectangle 0 (g.height - 16 - g.height % 16) g.width (16 + g.height % 16))
    (memmove m g.vmem (g.vmem + 4 * (g.width * 16)) ((g.width * g.height - g.width * 16) * 4)) := by
  rw [paint, rectangle, List.foldl_map]
  simp only [Nat.zero_add]
  rfl

theorem memmove_pixel (inX : x < g.width) (inY : y + 16 < g.height) :
    pixel g (memmove m g.vmem (g.vmem + 4 * (g.width * 16))
      ((g.width * g.height - g.width * 16) * 4)) x y = pixel g m x (y + 16) := by
  have inside := index_lt inX (show y < g.height - 16 by omega)
  have below : 0 < g.width * 16 := by omega
  rw [Nat.mul_sub] at inside
  have moved : g.vmem + 4 * (x + (y + 16) * g.width) =
      4 * (g.width * 16) + (g.vmem + 4 * (x + y * g.width)) := by ring
  rw [pixel, pixel, word, word, moved, ← getLE_advance m (4 * (g.width * 16))]
  refine congrArg UInt32.ofNat (getLE_congr fun i low high => ?_)
  obtain ⟨k, rfl⟩ := Nat.exists_eq_add_of_le (Nat.le_trans (Nat.le_add_right _ _) low)
  rw [memmove_copied (by omega) (by omega), advance]
  exact congrArg m (by omega)

/-- Although `memmove` clears what it has copied, the lines that stay come out whole: the cleared
    ones at the end are painted over. -/
theorem scroll_pixel (inX : x < g.width) (inY : y < g.rows * 16) :
    pixel g (scroll g m) x y = if y / 16 + 1 = g.rows then bc else pixel g m x (y + 16) := by
  have tall := g.tall
  rw [Framebuffer.rows] at inY ⊢
  have painted := @get_paint _ _ _ _ (pixels g) (fun _ => bc)
    (rectangle 0 (g.height - 16 - g.height % 16) g.width (16 + g.height % 16))
    (memmove m g.vmem (g.vmem + 4 * (g.width * 16)) ((g.width * g.height - g.width * 16) * 4))
    (x, y) (fun q member => by
      have := mem_rectangle.mp member
      change q.1 < g.width
      omega) inX
  rw [← scroll_eq] at painted
  refine painted.trans ?_
  by_cases last : y / 16 + 1 = g.height / 16
  · rw [if_pos (mem_rectangle.mpr (by omega)), if_pos last]
  · rw [if_neg fun member => last (by have := mem_rectangle.mp member; omega), if_neg last]
    exact memmove_pixel inX (by omega)

theorem scroll_apart {before : Mem} (apart : Apart g before m) : Apart g before (scroll g m) := by
  have tall := g.tall
  have whole : g.width * 16 ≤ g.width * g.height := Nat.mul_le_mul_left _ tall
  rw [scroll_eq]
  refine rectangle_apart (fun a out => ?_) (by omega) (by omega)
  rw [memmove_others (by omega) (by omega)]
  exact apart a out

theorem drawGlyph_apart {before : Mem} {ch : UInt8} {x0 y0 : Nat} (apart : Apart g before m)
    (inX : x0 + 8 ≤ g.width) (inY : y0 + 16 ≤ g.height) :
    Apart g before (drawGlyph g m ch x0 y0) := by
  rw [drawGlyph_eq]
  exact rectangle_apart apart inX inY

theorem clearscreen_eq (col : UInt32) : clearscreen g m col =
    paint (words g) (fun _ => col) (List.range (g.width * g.height)) m := rfl

theorem clearscreen_pixel (col : UInt32) (inX : x < g.width) (inY : y < g.height) :
    pixel g (clearscreen g m col) x y = col := by
  have painted := @get_paint _ _ _ _ (words g) (fun _ => col) (List.range (g.width * g.height)) m
    (x + y * g.width) (fun _ _ => trivial) trivial
  rw [if_pos (List.mem_range.mpr (index_lt inX inY)), ← clearscreen_eq] at painted
  exact painted

theorem clearscreen_apart (col : UInt32) : Apart g m (clearscreen g m col) := by
  rw [clearscreen_eq]
  exact paint_keeps (fun m i v member kept => storeWord_apart v kept (List.mem_range.mp member))
    fun _ _ => rfl

end Pixels

section Pages
variable {g : Framebuffer} {c : Console} {p : Page g.cols g.rows} {before : Mem}

theorem Shown.newLine (shown : Shown g before c p) : Shown g before (newLine g c) p.newLine := by
  obtain ⟨apart, posx, posy, picture⟩ := shown
  have inY := p.inY
  have rows := g.rows_eq
  have cols := g.cols_eq
  rw [OmenConsole.newLine, Page.newLine]
  by_cases last : p.y + 1 = g.rows
  · rw [dif_pos last, if_pos (by omega)]
    refine ⟨scroll_apart apart, rfl, posy, fun x y inX inY => ?_⟩
    rw [scroll_pixel (by omega) inY]
    by_cases bottom : y / 16 + 1 = g.rows
    · simp only [bottom, if_true, shade]
    · rw [picture x (y + 16) inX (by omega)]
      simp only [bottom, if_false, show (y + 16) / 16 = y / 16 + 1 by omega,
        show (y + 16) % 16 = y % 16 by omega]
  · rw [dif_neg last, if_neg (by omega)]
    exact ⟨apart, rfl, congrArg (· + 1) posy, picture⟩

theorem Shown.drawn (shown : Shown g before c p) (ch : UInt8) :
    Shown g before { c with mem := drawGlyph g c.mem ch (c.posx * 8) (c.posy * 16) }
      (p.set ch) := by
  obtain ⟨apart, posx, posy, picture⟩ := shown
  have inX := p.inX
  have inY := p.inY
  have cols := g.cols_eq
  have rows := g.rows_eq
  have kept := @drawGlyph_apart g c.mem before ch (c.posx * 8) (c.posy * 16) apart (by omega)
    (by omega)
  refine ⟨kept, posx, posy, fun x y left low => ?_⟩
  rw [drawGlyph_pixel (by omega) (by omega), Page.set, posx, posy]
  by_cases here : x / 8 = p.x ∧ y / 16 = p.y
  · simp only [here, and_self, if_true, shade]
  · simp only [here, if_false]
    exact picture x y left low

theorem Shown.putGlyph (shown : Shown g before c p) (ch : UInt8) :
    Shown g before (putGlyph g c ch) (p.put ch) := by
  have drawn := shown.drawn ch
  have inX := p.inX
  have posx := shown.posx
  have cols := g.cols_eq
  rw [OmenConsole.putGlyph, Page.put]
  by_cases last : p.x + 1 = g.cols
  · rw [dif_pos last, if_pos (by omega)]
    exact drawn.newLine
  · rw [dif_neg last, if_neg (by omega)]
    exact ⟨drawn.apart, congrArg (· + 1) posx, drawn.posy, drawn.picture⟩

theorem Shown.back (shown : Shown g before c p) (moved : ¬ (p.x = 0 ∧ p.y = 0)) :
    ∃ c', back g c = some c' ∧ Shown g before c' p.back := by
  obtain ⟨apart, posx, posy, picture⟩ := shown
  have cols := g.cols_eq
  rw [OmenConsole.back, Page.back]
  by_cases first : p.x = 0
  · rw [if_pos (posx.trans first), if_neg (by omega), if_pos first]
    exact ⟨_, rfl, apart, by dsimp only; omega, by dsimp only; omega, picture⟩
  · rw [if_neg (by omega), if_neg first]
    exact ⟨_, rfl, apart, congrArg (· - 1) posx, posy, picture⟩

theorem back_put (moved : ¬ (p.x = 0 ∧ p.y = 0)) (ch : UInt8) :
    ¬ ((p.back.put ch).x = 0 ∧ (p.back.put ch).y = 0) ∧ (p.back.put ch).back = p.back.set ch := by
  have inX := p.inX
  have inY := p.inY
  by_cases first : p.x = 0
  · -- from the end of the line before, the space leads back to where the cursor was
    have before : p.back.x + 1 = g.cols ∧ p.back.y + 1 = p.y := by
      rw [Page.back, if_pos first]
      dsimp only
      omega
    have there : (p.back.put ch).x = 0 ∧ (p.back.put ch).y = p.y ∧
        (p.back.put ch).cells = (p.back.set ch).cells := by
      rw [Page.put, dif_pos before.1, Page.newLine, dif_neg (by simp only [Page.set]; omega)]
      exact ⟨rfl, before.2, rfl⟩
    refine ⟨by omega, ?_⟩
    rw [Page.back, if_pos there.1]
    apply Page.ext
    · exact there.2.2
    · simp only [Page.set]
      omega
    · simp only [Page.set]
      omega
  · have before : p.back.x + 1 = p.x ∧ p.back.y = p.y := by
      rw [Page.back, if_neg first]
      dsimp only
      omega
    have there : (p.back.put ch).x = p.x ∧ (p.back.put ch).y = p.back.y ∧
        (p.back.put ch).cells = (p.back.set ch).cells := by
      rw [Page.put, dif_neg (by omega)]
      exact ⟨before.1, rfl, rfl⟩
    refine ⟨by omega, ?_⟩
    rw [Page.back, if_neg (by omega)]
    apply Page.ext
    · exact there.2.2
    · simp only [Page.set]
      omega
    · exact there.2.1

theorem Shown.putchar (shown : Shown g before c p) (ch : UInt8) :
    Shown g before (putchar g c ch) (p.type ch) := by
  rw [OmenConsole.putchar, Page.type]
  split
  · exact shown.newLine
  split
  · suffices tab : ∀ n, Shown g before
        ((List.range n).foldl (fun c _ => OmenConsole.putGlyph g c 32) c)
        ((List.range n).foldl (fun p _ => p.put 32) p) from tab 8
    intro n
    induction n with
    | zero => exact shown
    | succ n ih =>
      rw [List.range_succ, List.foldl_append, List.foldl_append]
      exact ih.putGlyph 32
  split
  · rw [Page.rubOut]
    by_cases origin : p.x = 0 ∧ p.y = 0
    · rw [if_pos origin, OmenConsole.back, if_pos (shown.posx.trans origin.1),
        if_pos (shown.posy.trans origin.2)]
      exact shown
    · obtain ⟨c', one, shown⟩ := shown.back origin
      obtain ⟨further, again⟩ := back_put origin 32
      obtain ⟨c'', two, shown⟩ := (shown.putGlyph 32).back further
      rw [if_neg origin, one]
      dsimp only
      rwa [two, Option.getD_some, ← again]
  · exact shown.putGlyph ch

end Pages

/-- From a cleared screen on, whatever text is put out, the framebuffer shows the page that the
    text makes, pixel for pixel, and no byte outside of the framebuffer is written. -/
theorem console_shows (g : Framebuffer) (m : Mem) (text : List UInt8) :
    Shown g m (text.foldl (putchar g) ⟨clearscreen g m bc, 0, 0⟩)
      (text.foldl Page.type (Page.empty g.cols_eq.2.2 g.rows_eq.2.2)) := by
  have cols := g.cols_eq
  have rows := g.rows_eq
  induction text using List.reverseRecOn with
  | nil =>
    refine ⟨clearscreen_apart bc, rfl, rfl, fun x y inX inY => ?_⟩
    exact clearscreen_pixel bc (by omega) (by omega)
  | append_singleton text ch ih =>
    rw [List.foldl_append, List.foldl_append]
    exact ih.putchar ch

def twoBlocks : Framebuffer := ⟨0xe0000000, 16, 16, fun _ => 0xff, by decide, by decide⟩

theorem console_shows_block :
    pixel twoBlocks (putchar twoBlocks ⟨clearscreen twoBlocks (fun _ => 0) bc, 0, 0⟩ 65).mem 3 5 =
        fc ∧
      pixel twoBlocks
          (putchar twoBlocks ⟨clearscreen twoBlocks (fun _ => 0) bc, 0, 0⟩ 65).mem 11 5 =
        bc :=
  ⟨((console_shows twoBlocks (fun _ => 0) [65]).picture 3 5 (by decide) (by decide)).trans rfl,
    ((console_shows twoBlocks (fun _ => 0) [65]).picture 11 5 (by decide) (by decide)).trans rfl⟩

end OmenConsole
