import Omen.Ext2.BlockDriver

/- What `ext2_partition_register_partition` computes from a superblock. The sector size is the
   answer of the disk to `IOCTL_GET_SECTOR_SIZE`. Buffers the source leaves uninitialised are
   zero. -/
namespace OmenExt2
open ByteMemory OmenDisk

def superMagic : Nat := 0xEF53

def sbOffsetLba : Nat := 2

def sMagic (sb : Mem) : Nat := getLE sb 56 2

def Partition.s_inodes_count (p : Partition) : Nat := getLE p.sb 0 4

/-- The first entry of the table is -1 until a copy is found, the other ones are 0. -/
def backupTable (copies : List Nat) (i : Nat) : Int :=
  match copies[i]? with
  | some group => group
  | none => if i = 0 then -1 else 0

def bgdtBlock (block_size : Nat) : Nat := if block_size = 1024 then 2 else 1

def superblockPartition (lba sector_size : Nat) (sb : Mem) : Partition where
  lba := lba
  group_number := divideRoundedUp (2 ^ 32) (getLE sb 4 4) (getLE sb 32 4)
  sector_size := sector_size
  bgdt_block := bgdtBlock (1024 <<< getLE sb 24 4 % 2 ^ 32)
  sb_block := sbOffsetLba
  backup_bgs := backupTable []
  backup_bgs_count := 0
  sb := sb
  gd := blank

namespace Partition
variable (p : Partition)

def groupsByInodes : Nat := divideRoundedUp (2 ^ 32) p.s_inodes_count p.s_inodes_per_group

def descriptorSectors : Nat := divideRoundedUp (2 ^ 64) (p.group_number * 32) p.sector_size % 2 ^ 32

def descriptorBytes : Nat := p.descriptorSectors * p.sector_size % 2 ^ 32

def groupSectors : Nat := p.s_blocks_per_group * p.blockSectors % 2 ^ 32

def backupSector (group : Nat) : Nat :=
  (p.lba + group * p.groupSectors % 2 ^ 32 + sbOffsetLba) % 2 ^ 32

def descriptorSector : Nat := (p.lba + p.blockSectors * p.bgdt_block % 2 ^ 32) % 2 ^ 32

end Partition

def diskBytes (d : Nat → Mem) (sector : Nat) : Mem :=
  fun i => d (sectorAt (widen sector) (i / 512)) (i % 512)

theorem reliable_readDisk {count : Nat} (small : count < 2 ^ 31) (sector : Nat) (d : Nat → Mem) :
    reliable.readDisk sector count blank 0 d =
      (count, memcpy blank 0 (diskBytes d sector) (512 * ((count + 511) / 512)), d) := by
  simp only [reliable, ata, ddDiskRead, ddDiskReadFrom_reliable, widen_small small, sizeToBlocks]
  rw [Nat.mod_eq_of_lt (by omega : count < 2 ^ 32),
    Nat.mod_eq_of_lt (by omega : count + 511 < 2 ^ 64)]
  congr 2
  funext k
  simp only [memcpy, diskBytes, Nat.mul_zero, Nat.add_zero, Nat.zero_add, Nat.sub_zero]

def superblockAt (d : Nat → Mem) (lba : Nat) : Mem :=
  memcpy blank 0 (diskBytes d ((lba + sbOffsetLba) % 2 ^ 32)) 1024

end OmenExt2
