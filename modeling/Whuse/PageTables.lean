import Whuse.AddressSpace
import Whuse.PagedView
import Whuse.RadixTable

/-! The page-table builders of the `mm` crate for riscv64 (Sv39) and loongarch64. A table is a
page of 512 words named by its address; `table_mut` is a read or a write of such a word. The
boxes the builders allocate come from a supply. The walks at the end are those of the
hardware, not of the builders. -/
namespace PageTables

open MachineWord AddressSpace PagedView RadixTable

structure BoxPages extends Supply where
  aligned : ∀ k < limit, addr k % pageSize = 0
  below : ∀ k < limit, addr k < 2 ^ 48

/-- The supply held every page of these tables. -/
def BoxPages.Held (boxes : BoxPages) (T : Tables ℕ) : Prop := T.pages.length ≤ boxes.limit

def riscvPteV : ℕ := 1
def riscvPteR : ℕ := 2
def riscvPteW : ℕ := 4
def riscvPteX : ℕ := 8
def riscvPteU : ℕ := 16
def riscvPteA : ℕ := 64
def riscvPteD : ℕ := 128

def riscvMmioBase : ℕ := 0x02000000
def riscvMmioSize : ℕ := 0x1e000000

def riscvMakeLeafPte (paddr flags : ℕ) : ℕ := (paddr >>> 12) <<< 10 ||| flags ||| riscvPteV

def riscvMakeTablePte (paddr : ℕ) : ℕ := (paddr >>> 12) <<< 10 ||| riscvPteV

def riscvSegmentPteFlags (prot : ℕ) : ℕ :=
  let write := prot &&& 0b010 != 0
  let exec := prot &&& 0b100 != 0
  let read := prot &&& 0b001 != 0 || exec
  let flags := riscvPteU ||| riscvPteA ||| riscvPteD
  let flags := if read then flags ||| riscvPteR else flags
  let flags := if write then flags ||| riscvPteW else flags
  let flags := if exec then flags ||| riscvPteX else flags
  if flags &&& (riscvPteR ||| riscvPteW ||| riscvPteX) = 0 then
    flags ||| (riscvPteR ||| riscvPteW)
  else flags

/-- How `ensure_next_table` tells the entries of an Sv39 table apart. -/
def sv39Format : Format ℕ where
  empty := 0
  link := riscvMakeTablePte
  classify existing :=
    if existing &&& riscvPteV ≠ 0 ∧ existing &&& (riscvPteR ||| riscvPteW ||| riscvPteX) = 0 then
      .table ((existing >>> 10) <<< 12 % 2 ^ 64)
    else if existing &&& riscvPteV ≠ 0 then .leaf
    else .absent

def laPteV : ℕ := 1
def laPteGh : ℕ := 64
def laPteP : ℕ := 128
def laPteAddrMask : ℕ := 0x0000fffffffff000

def loongMakeLeafPte (paddr flags : ℕ) : ℕ := (paddr &&& laPteAddrMask) ||| flags

def loongMakeTablePte (paddr : ℕ) : ℕ := paddr &&& laPteAddrMask

/-- How `ensure_next_table` tells the entries of a LoongArch table apart. -/
def loongFormat : Format ℕ where
  empty := 0
  link := loongMakeTablePte
  classify existing :=
    if existing = 0 then .absent
    else if existing &&& (laPteP ||| laPteV) ≠ 0 then .leaf
    else .table (alignDown existing pageSize)

/-! What both builders share: the loop over an identity window and the loop over the pages of
a segment. -/

def mapIdentity2m (map2m : τ → ℕ → ℕ → ℕ → τ) (T : τ) (start end_ flags : ℕ) : τ :=
  (steps (alignDown start (2 ^ 21)) (alignUp end_ (2 ^ 21)) (2 ^ 21)).foldl
    (fun T cursor => map2m T cursor cursor flags) T

def segmentPhysBase (segment : Segment) : Option ℕ :=
  let pageOffset := pageOffset segment.area.start
  match segment.storage with
  | .owned frames => some frames.inner.physBase
  | .shared _ ptr => some (ptr - pageOffset)
  | .host ptr _ => if ptr &&& (pageSize - 1) = pageOffset then some (ptr - pageOffset) else none

def segmentStart (segment : Segment) : ℕ := alignDown segment.area.start pageSize

def segmentEnd (segment : Segment) : ℕ :=
  alignUp (wrappingAdd segment.area.start segment.area.len) pageSize

/-- A segment that lies on its own physical frames in `[ramLo, ramHi)` is left to the window. -/
def mapSegmentPages (map4k : τ → ℕ → ℕ → ℕ → τ) (ramLo ramHi : ℕ) (pteFlags : ℕ → ℕ) (T : τ)
    (segment : Segment) : τ :=
  match segmentPhysBase segment with
  | none => T
  | some physBase =>
    let start := segmentStart segment
    if (ramLo ≤ start ∧ start < ramHi) ∧ physBase = start then T
    else
      (steps start (segmentEnd segment) pageSize).foldl
        (fun T vaddr => map4k T vaddr (wrappingAdd physBase (vaddr - start))
          (pteFlags segment.area.prot)) T

namespace Sv39

def ensureNextTable (boxes : BoxPages) (T : Tables ℕ) (table index : ℕ) : ℕ × Tables ℕ :=
  ensure sv39Format boxes.toSupply T table index

/-- Unlike the other mapping functions, this one does not look at the address it is given back. -/
def map2m (boxes : BoxPages) (T : Tables ℕ) (vaddr paddr flags : ℕ) : Tables ℕ :=
  if (vaddr ||| paddr) &&& (2 ^ 21 - 1) ≠ 0 then T
  else
    let vpn2 := (vaddr >>> 30) &&& 0x1ff
    let vpn1 := (vaddr >>> 21) &&& 0x1ff
    let l1 := ensureNextTable boxes T T.root vpn2
    write l1.2 l1.1 vpn1 (riscvMakeLeafPte paddr flags)

def map4k (boxes : BoxPages) (T : Tables ℕ) (vaddr paddr flags : ℕ) : Tables ℕ :=
  if (vaddr ||| paddr) &&& (pageSize - 1) ≠ 0 then T
  else
    let vpn2 := (vaddr >>> 30) &&& 0x1ff
    let vpn1 := (vaddr >>> 21) &&& 0x1ff
    let vpn0 := (vaddr >>> 12) &&& 0x1ff
    let l1 := ensureNextTable boxes T T.root vpn2
    if l1.1 = 0 then l1.2
    else
      let l0 := ensureNextTable boxes l1.2 l1.1 vpn1
      if l0.1 = 0 then l0.2 else write l0.2 l0.1 vpn0 (riscvMakeLeafPte paddr flags)

end Sv39

namespace Loong

def ensureNextTable (boxes : BoxPages) (T : Tables ℕ) (table index : ℕ) : ℕ × Tables ℕ :=
  ensure loongFormat boxes.toSupply T table index

def map2m (boxes : BoxPages) (T : Tables ℕ) (vaddr paddr flags : ℕ) : Tables ℕ :=
  if (vaddr ||| paddr) &&& (2 ^ 21 - 1) ≠ 0 then T
  else
    let dir3 := (vaddr >>> 39) &&& 0x1ff
    let dir2 := (vaddr >>> 30) &&& 0x1ff
    let dir1 := (vaddr >>> 21) &&& 0x1ff
    let l2 := ensureNextTable boxes T T.root dir3
    if l2.1 = 0 then l2.2
    else
      let l1 := ensureNextTable boxes l2.2 l2.1 dir2
      if l1.1 = 0 then l1.2 else write l1.2 l1.1 dir1 (loongMakeLeafPte paddr (flags ||| laPteGh))

def map4k (boxes : BoxPages) (T : Tables ℕ) (vaddr paddr flags : ℕ) : Tables ℕ :=
  if (vaddr ||| paddr) &&& (pageSize - 1) ≠ 0 then T
  else
    let dir3 := (vaddr >>> 39) &&& 0x1ff
    let dir2 := (vaddr >>> 30) &&& 0x1ff
    let dir1 := (vaddr >>> 21) &&& 0x1ff
    let pt := (vaddr >>> 12) &&& 0x1ff
    let l2 := ensureNextTable boxes T T.root dir3
    if l2.1 = 0 then l2.2
    else
      let l1 := ensureNextTable boxes l2.2 l2.1 dir2
      if l1.1 = 0 then l1.2
      else
        let l0 := ensureNextTable boxes l1.2 l1.1 dir1
        if l0.1 = 0 then l0.2 else write l0.2 l0.1 pt (loongMakeLeafPte paddr flags)

end Loong

def riscvRamFlags : ℕ := riscvPteR ||| riscvPteW ||| riscvPteX ||| riscvPteA ||| riscvPteD

def riscvMmioFlags : ℕ := riscvPteR ||| riscvPteW ||| riscvPteA ||| riscvPteD

def mapSegmentPagesRiscv (boxes : BoxPages) : Tables ℕ → Segment → Tables ℕ :=
  mapSegmentPages (Sv39.map4k boxes) 0x80000000 0x100000000 riscvSegmentPteFlags

def buildRiscvPageTable (boxes : BoxPages) (segments : List Segment) : Tables ℕ :=
  let builder := start sv39Format boxes.toSupply
  let builder := mapIdentity2m (Sv39.map2m boxes) builder 0x80000000 0x100000000 riscvRamFlags
  let builder := mapIdentity2m (Sv39.map2m boxes) builder riscvMmioBase
    (riscvMmioBase + riscvMmioSize) riscvMmioFlags
  segments.foldl (mapSegmentPagesRiscv boxes) builder

def pageSizeAt (level : ℕ) : ℕ := 4096 * 512 ^ level

/-- An Sv39 walk from a table of the given level. An entry is valid by its V bit and a leaf as
soon as it has one of R, W and X; a leaf that is not aligned to its size faults. -/
def sv39Walk (entry : ℕ → ℕ → ℕ) : ℕ → ℕ → ℕ → Option Leaf
  | level, table, v =>
    let pte := entry table ((v >>> (12 + 9 * level)) &&& 0x1ff)
    let base := ((pte >>> 10) &&& (2 ^ 44 - 1)) * 4096
    if pte &&& riscvPteV = 0 then none
    else if pte &&& (riscvPteR ||| riscvPteW ||| riscvPteX) = 0 then
      match level with
      | 0 => none
      | level + 1 => sv39Walk entry level base v
    else if base % pageSizeAt level ≠ 0 then none
    else some ⟨pageSizeAt level, base, pte &&& 0x3ff⟩

def riscvTranslate (T : Tables ℕ) (v : ℕ) : Option Leaf := sv39Walk T.entry 2 T.root v

end PageTables
