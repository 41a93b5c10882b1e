import Omen.Library.BuddyTree
import Omen.Memory.LinkedList
import Omen.Memory.WordBitmap

/- `buddy_allocator.c`: blocks of halved sizes, each level with a list of its free blocks
   whose nodes stand in the blocks themselves, and two bits for every pair of halves. An
   access behind `block_info` has no result. -/
namespace OmenMemory

structure BuddyShape where
  address : Nat
  size : Nat
  page_size : Nat
  num_levels : Nat
  /-- The address of the list heads. -/
  free_blocks : Nat

structure Buddy extends BuddyShape where
  block_info : BitmapWords
  /-- The memory in which list heads and list nodes stand. -/
  memory : Words

def sizeofListHead : Nat := 16

/-- `BUDDY_BLOCK_INFO_LEN`; the division binds before the sum, so that its second half is 0. -/
def buddyBlockInfoLen (numLevels : Nat) : Nat :=
  2 ^ numLevels + (bitmapNumBits - 1) / bitmapNumBits

namespace BuddyShape

def head (g : BuddyShape) (level : Nat) : Nat := g.free_blocks + sizeofListHead * level

def pageIndex (g : BuddyShape) (ptr : Nat) : Nat := (ptr - g.address) / g.page_size

def blockIndex (g : BuddyShape) (ptr level : Nat) : Nat :=
  2 ^ level + (g.pageIndex ptr >>> (g.num_levels - 1 - level)) - 1

def splitBit (g : BuddyShape) (index : Nat) : Nat := index + (2 ^ g.num_levels) >>> 1

def toBuddy (g : BuddyShape) (ptr level : Nat) : Nat :=
  ((ptr - g.address) ^^^ (g.size >>> level)) + g.address

end BuddyShape

/-- The subtraction wraps at the root. -/
def freeBit (index : Nat) : Nat := ((index + 2 ^ 64 - 1) % 2 ^ 64) >>> 1

namespace Buddy

def onBit (s : Buddy) (operation : BitmapWords → Nat → BitmapWords) (index : Nat) :
    Option Buddy :=
  if index < bitmapNumBits * buddyBlockInfoLen s.num_levels then
    some { s with block_info := operation s.block_info index }
  else none

def getBit (s : Buddy) (index : Nat) : Option Bool :=
  if index < bitmapNumBits * buddyBlockInfoLen s.num_levels then
    some (bitmapGet s.block_info index)
  else none

def toggleFree (s : Buddy) (index level : Nat) : Option Buddy :=
  if 0 < level then s.onBit bitmapToggle (freeBit index) else some s

/-- The first loop of `buddy_level_alloc`: the nearest level from `level` up to the root
    with a free block. -/
def findLevel (s : Buddy) : Nat → Option Nat
  | 0 => if listEmpty s.memory (s.head 0) then none else some 0
  | level + 1 =>
    if listEmpty s.memory (s.head (level + 1)) then s.findLevel level else some (level + 1)

def splitDown (ptr : Nat) : Nat → Nat → Nat → Buddy → Option (Nat × Buddy)
  | 0, _, index, s => some (index, s)
  | count + 1, level, index, s => do
    let s ← s.onBit bitmapSet (s.splitBit index)
    let s ← s.toggleFree index level
    let buddy := s.toBuddy ptr (level + 1)
    let s := { s with memory := listAdd s.memory buddy (s.head (level + 1)) }
    splitDown ptr count (level + 1) (2 * index + 1) s

def levelAlloc (s : Buddy) (level : Nat) : Option (Option Nat × Buddy) :=
  match s.findLevel level with
  | none => some (none, s)
  | some blockLevel => do
    let ptr := s.memory.next (s.head blockLevel)
    let s := { s with memory := listDel s.memory ptr }
    let (index, s) ← splitDown ptr (level - blockLevel) blockLevel (s.blockIndex ptr blockLevel) s
    let s ← s.toggleFree index level
    some (some ptr, s)

/-- The loop of `buddy_level_free`: where it ends, with which block. -/
def mergeUp : Nat → Nat → Nat → Buddy → Option (Nat × Nat × Nat × Buddy)
  | 0, index, ptr, s => some (0, index, ptr, s)
  | level + 1, index, ptr, s => do
    let taken ← s.getBit (freeBit index)
    if taken then some (level + 1, index, ptr, s)
    else
      let s ← s.onBit bitmapClear (s.splitBit index)
      let buddy := s.toBuddy ptr (level + 1)
      let s := { s with memory := listDel s.memory buddy }
      let index := freeBit index
      let ptr := if buddy < ptr then buddy else ptr
      let s ← s.toggleFree index level
      mergeUp level index ptr s

def levelFree (s : Buddy) (ptr level : Nat) : Option Buddy := do
  let index := s.blockIndex ptr level
  let s ← s.toggleFree index level
  let (level, index, ptr, s) ← mergeUp level index ptr s
  let s ← s.onBit bitmapClear (s.splitBit index)
  some { s with memory := listAdd s.memory ptr (s.head level) }

end Buddy

def ilog2 (value : Nat) : Nat := Nat.log2 value

/-- The literal that is shifted is an `int`, and 0 has no leading-zero count. -/
def BuddyShape.sizeToLevel (g : BuddyShape) (size : Nat) : Option Nat :=
  if size < g.page_size then some (g.num_levels - 1)
  else if size - 1 = 0 then none
  else
    let shift := ilog2 (size - 1) + 1
    if shift < 31 then some ((ilog2 g.size + 2 ^ 64 - ilog2 (1 <<< shift)) % 2 ^ 64) else none

namespace Buddy

def alloc (s : Buddy) (size : Nat) : Option (Option Nat × Buddy) :=
  if s.size < size then some (none, s)
  else do
    let level ← s.sizeToLevel size
    s.levelAlloc level

/-- The loop of `buddy_free` that looks for the level of a block: the first parent on the way
    up that is split. -/
def climb (s : Buddy) : Nat → Nat → Option Nat
  | 0, _ => some 0
  | level + 1, index => do
    let index := freeBit index
    let divided ← s.getBit (s.splitBit index)
    if divided then some level else s.climb level index

def freeLevel (s : Buddy) (ptr : Nat) : Option (Option Nat) :=
  if ptr = 0 then some none
  else if ptr < s.address ∨ s.address + s.size < ptr then some none
  else (s.climb s.num_levels (s.blockIndex ptr (s.num_levels - 1))).map some

def free (s : Buddy) (ptr : Nat) : Option Buddy := do
  match ← s.freeLevel ptr with
  | none => some s
  | some level => s.levelFree ptr level

def largestFrom (s : Buddy) : Nat → Nat → Nat
  | _, 0 => 0
  | level, n + 1 =>
    if listEmpty s.memory (s.head level) then s.largestFrom (level + 1) n else s.size >>> level

def largestAvailable (s : Buddy) : Nat := s.largestFrom 0 s.num_levels

/-- The blocks of a list. The walk is cut off at the number of blocks of all levels, which no
    list of an allocator has. -/
def freeNodes (s : Buddy) (level : Nat) : Option (List Nat) :=
  listNodes s.memory (s.head level) (s.memory.next (s.head level)) (2 ^ s.num_levels)

def count (s : Buddy) (level : Nat) : Option Nat := do
  let nodes ← s.freeNodes level
  if nodes.length < 2 ^ 31 then some nodes.length else none

def availableFrom (s : Buddy) : Nat → Nat → Nat → Option Nat
  | _, 0, sum => some sum
  | level, n + 1, sum => do
    let count ← s.count level
    s.availableFrom (level + 1) n ((sum + count * (s.size >>> level)) % 2 ^ 64)

def available (s : Buddy) : Option Nat := s.availableFrom 0 s.num_levels 0

def used (s : Buddy) : Option Nat := do
  let available ← s.available
  some ((s.size + 2 ^ 64 - available) % 2 ^ 64)

end Buddy

def numLevels (size pageSize : Nat) : Nat :=
  (ilog2 size + 2 ^ 64 - ilog2 pageSize + 1) % 2 ^ 64

def sizeofBuddyAllocator : Nat := 48

def initHeads (heads : Nat) (memory : Words) : Nat → Nat → Words
  | _, 0 => memory
  | i, n + 1 => initHeads heads (initListHead memory (heads + sizeofListHead * i)) (i + 1) n

def buddyInit (allocator address size pageSize : Nat) (memory : Words) (info : BitmapWords) :
    Buddy :=
  let levels := numLevels size pageSize
  let heads := allocator + sizeofBuddyAllocator
  let memory := initHeads heads memory 0 levels
  { address := address
    size := size
    page_size := pageSize
    num_levels := levels
    free_blocks := heads
    memory := listAdd memory address (heads + sizeofListHead * 0)
    block_info := fun i => if i < buddyBlockInfoLen levels then 0 else info i }

def buddySizeofMetadata (levels : Nat) : Nat :=
  sizeofBuddyAllocator + sizeofListHead * levels +
    buddyBlockInfoLen levels * (bitmapNumBits >>> 3)

def isPow2 (n : Nat) : Bool := decide (0 < n) && n &&& (n - 1) == 0

def buddyNumPages (size pageSize : Nat) : Nat := (size + (pageSize - 1)) % 2 ^ 64 / pageSize

def takePages (s : Buddy) : Nat → Option Buddy
  | 0 => some s
  | count + 1 => do
    let s ← takePages s count
    let (_, s) ← s.levelAlloc (s.num_levels - 1)
    some s

def moveLists (old new : Nat) (memory : Words) : Nat → Nat → Words
  | _, 0 => memory
  | i, n + 1 =>
    moveLists old new
      (listSplice (initListHead memory (new + sizeofListHead * i)) (old + sizeofListHead * i)
        (new + sizeofListHead * i))
      (i + 1) n

/-- The temporary allocator of `buddy_create`, at the end of the region. -/
def tmpAllocator (address size pageSize : Nat) (memory : Words) (info : BitmapWords) : Buddy :=
  let metadata := buddySizeofMetadata (numLevels size pageSize) % 2 ^ 64
  buddyInit (address + size - metadata) address size pageSize memory info

/-- `buddy_create`. Without a level there is no list head to use, and for 64 levels or more
    `POW2` has no value. Header and `block_info` are not in `memory`: the code and this model
    agree as long as no list node overlaps the metadata of the temporary allocator. -/
def buddyCreate (address size pageSize : Nat) (memory : Words) (info behind : BitmapWords) :
    Option (Option Buddy) :=
  if address = 0 ∨ isPow2 size = false ∨ isPow2 pageSize = false then some none
  else
    let levels := numLevels size pageSize
    if levels = 0 ∨ 64 ≤ levels then none
    else do
      let metadata := buddySizeofMetadata levels % 2 ^ 64
      let tmp ← takePages (tmpAllocator address size pageSize memory info)
        (buddyNumPages metadata pageSize)
      let heads := address + sizeofBuddyAllocator
      some (some { tmp with
        free_blocks := heads
        block_info := fun i => if i < buddyBlockInfoLen levels then tmp.block_info i else behind i
        memory := moveLists tmp.free_blocks heads tmp.memory 0 levels })

end OmenMemory
