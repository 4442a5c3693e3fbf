import Linguafranca.Ipshark2.Pool

/-!
# The mapping of the area

`ips_vma_fault` answers a page fault in a mapping of the device. It computes an offset, prints
it and then asks for the page at the start of the area in any case. Which page holds an address
of the area is for `vmalloc_to_page` to say; it is a parameter, and so is the address that
`vmalloc` gave.
-/

namespace Linguafranca.Ipshark2

/-- The number of bits of an offset in a page. -/
def pageShift : UInt64 := 12

/-- The size of a page. -/
def pageSize : ℕ := 4096

/-- A mapping, with the page of the file at which it starts. -/
structure VmAreaStruct where
  vmPgoff : UInt64

/-- A fault, with the page of the file that is missing. -/
structure VmFault where
  pgoff : UInt64

/-- The answer `VM_FAULT_SIGBUS`. -/
def vmFaultSigbus : ℕ := 0x2

/-- The answer `VM_FAULT_NOPAGE`. -/
def vmFaultNopage : ℕ := 0x100

/-- The pointer `m`, which is NULL without a pool. -/
def ipQueueDmaAddr (addr : ℕ) (pool : Option IpQueue) : Option ℕ :=
  pool.map fun _ => addr

/-- The offset of element `i` in the area. -/
def num2addr (i : ℕ) : ℕ :=
  areaSize i

section

variable {Page : Type*} (vmallocToPage : ℕ → Option Page)

/-- What is returned, and the page that is installed. -/
def ipsVmaFault (pageptr : Option ℕ) (vma : VmAreaStruct) (vmf : VmFault) : ℕ × Option Page :=
  let _offset := (vmf.pgoff + (vma.vmPgoff <<< pageShift)) >>> pageShift
  match pageptr with
  | none => (vmFaultNopage, none)
  | some pageptr =>
      match vmallocToPage pageptr with
      | none => (vmFaultSigbus, none)
      | some page => (0, some page)

/-- The fault at a page of a mapping of the whole file. -/
def faultAt (addr : ℕ) (pool : Option IpQueue) (n : ℕ) : ℕ × Option Page :=
  ipsVmaFault vmallocToPage (ipQueueDmaAddr addr pool) ⟨0⟩ ⟨UInt64.ofNat n⟩

/-- The byte at an offset of the mapping, with what the pages hold. -/
def mappedByte (addr : ℕ) (pool : Option IpQueue) (content : Page → ℕ → UInt8) (offset : ℕ) :
    Option UInt8 :=
  (faultAt vmallocToPage addr pool (offset / pageSize)).2.map fun page =>
    content page (offset % pageSize)

/-- The pages of an area in order: each address is in the page of its offset, and different
pages are different. -/
structure VmallocPages (addr size : ℕ) (page : ℕ → Page) : Prop where
  holds : ∀ offset < size, vmallocToPage (addr + offset) = some (page (offset / pageSize))
  apart : ∀ m n, m * pageSize < size → n * pageSize < size → page m = page n → m = n

/-- The byte at an offset of the area, where the kernel wrote it. -/
def areaByte (page : ℕ → Page) (content : Page → ℕ → UInt8) (offset : ℕ) : UInt8 :=
  content (page (offset / pageSize)) (offset % pageSize)

/-- Whatever the pages hold, the byte in the mapping is the one in the area. -/
def ShowsByte (addr : ℕ) (page : ℕ → Page) (pool : Option IpQueue) (offset : ℕ) : Prop :=
  ∀ content, mappedByte vmallocToPage addr pool content offset =
    some (areaByte page content offset)

/-- A fault inside the area brings in the page with its bytes, and one beyond it none. -/
structure FaultsRight (addr : ℕ) (page : ℕ → Page) (q : IpQueue) (n : ℕ) : Prop where
  inside : n * pageSize < areaSize q.m.ipKeyInfoTotalSize →
    faultAt vmallocToPage addr (some q) n = (0, some (page n))
  shows : ∀ offset < areaSize q.m.ipKeyInfoTotalSize, offset / pageSize = n →
    ShowsByte vmallocToPage addr page (some q) offset
  beyond : areaSize q.m.ipKeyInfoTotalSize ≤ n * pageSize →
    (faultAt vmallocToPage addr (some q) n).2 = none

end

section

variable {Page : Type*} {vmallocToPage : ℕ → Option Page} {addr : ℕ} {page : ℕ → Page}
  {q : IpQueue}

theorem faultAt_eq
    (pages : VmallocPages vmallocToPage addr (areaSize q.m.ipKeyInfoTotalSize) page) (n : ℕ) :
    faultAt vmallocToPage addr (some q) n = (0, some (page 0)) := by
  have first := pages.holds 0 (by simp [areaSize])
  simp only [Nat.add_zero, Nat.zero_div] at first
  simp only [faultAt, ipsVmaFault, ipQueueDmaAddr, Option.map_some, first]

theorem showsByte_iff
    (pages : VmallocPages vmallocToPage addr (areaSize q.m.ipKeyInfoTotalSize) page)
    {offset : ℕ} (inside : offset < areaSize q.m.ipKeyInfoTotalSize) :
    ShowsByte vmallocToPage addr page (some q) offset ↔ offset / pageSize = 0 := by
  classical
  simp only [ShowsByte, mappedByte, areaByte, faultAt_eq pages, Option.map_some,
    Option.some.injEq]
  constructor
  · intro shows
    -- the first page holds zeros and the others ones
    have same := shows fun other _ => if other = page 0 then 0 else 1
    simp only [if_true] at same
    split at same
    · next first =>
        have start : offset / pageSize * pageSize ≤ offset := Nat.div_mul_le_self offset pageSize
        have zero : 0 * pageSize < areaSize q.m.ipKeyInfoTotalSize := by simp [areaSize]
        exact pages.apart (offset / pageSize) 0 (by omega) zero first
    · exact absurd same (by decide)
  · intro first content
    rw [first]

/-- A fault is answered right exactly at the first page. -/
theorem faultsRight_iff (q : IpQueue)
    (pages : VmallocPages vmallocToPage addr (areaSize q.m.ipKeyInfoTotalSize) page) (n : ℕ) :
    FaultsRight vmallocToPage addr page q n ↔ n = 0 := by
  constructor
  · intro right
    have fault := faultAt_eq pages n
    rcases Nat.lt_or_ge (n * pageSize) (areaSize q.m.ipKeyInfoTotalSize) with inside | beyond
    · have same := right.inside inside
      simp only [fault, Prod.mk.injEq, true_and, Option.some.injEq] at same
      have zero : 0 * pageSize < areaSize q.m.ipKeyInfoTotalSize := by simp [areaSize]
      exact (pages.apart 0 n zero inside same).symm
    · have none := right.beyond beyond
      simp [fault] at none
  · rintro rfl
    refine ⟨fun _ => faultAt_eq pages 0, ?_, ?_⟩
    · intro offset inside first
      exact (showsByte_iff pages inside).mpr first
    · intro beyond
      simp [areaSize] at beyond

/-- Of the records, the mapping shows the first fifty. -/
theorem record_shown_iff
    (pages : VmallocPages vmallocToPage addr (areaSize q.m.ipKeyInfoTotalSize) page)
    {i : ℕ} (below : i < q.m.ipKeyInfoTotalSize) :
    (∀ offset, num2addr i ≤ offset → offset < num2addr (i + 1) →
      ShowsByte vmallocToPage addr page (some q) offset) ↔ i < 50 := by
  have fits : num2addr (i + 1) ≤ areaSize q.m.ipKeyInfoTotalSize := by
    simp only [num2addr, areaSize]
    omega
  constructor
  · intro shown
    have lower : num2addr i ≤ num2addr (i + 1) - 1 := by
      simp only [num2addr, areaSize]
      omega
    have upper : num2addr (i + 1) - 1 < num2addr (i + 1) := by
      simp only [num2addr, areaSize]
      omega
    have last := shown (num2addr (i + 1) - 1) lower upper
    rw [showsByte_iff pages (by simp only [num2addr, areaSize] at fits ⊢; omega)] at last
    simp only [num2addr, areaSize, pageSize] at last
    omega
  · intro early offset lower upper
    rw [showsByte_iff pages (by omega)]
    simp only [num2addr, areaSize, pageSize] at lower upper ⊢
    omega

end

/-! ## An area of two pages -/

/-- Sixty indices for one CPU. -/
def sixtyPool : IpQueue :=
  (ipQueueCreate [] 60 10 true [⟨true, some 4, some 4⟩] true
    (fun _ => ⟨infoEc, 0, .free⟩) ⟨0, 0, 0, 0, 0, 0, 0⟩).2.get (by decide)

/-- Pages by their number, in an area at some address. -/
def pageNumber (addr size : ℕ) (address : ℕ) : Option ℕ :=
  if addr ≤ address ∧ address < addr + size then some ((address - addr) / pageSize) else none

theorem vmallocPages_pageNumber (addr size : ℕ) :
    VmallocPages (pageNumber addr size) addr size id where
  holds := by
    intro offset inside
    simp [pageNumber, inside]
  apart := fun _ _ _ _ same => same

theorem faultsRight_first : FaultsRight (pageNumber 8192 4820) 8192 id sixtyPool 0 :=
  (faultsRight_iff sixtyPool (vmallocPages_pageNumber 8192 4820) 0).mpr rfl

/-- The second page of the area does not show. -/
theorem second_not_faultsRight :
    VmallocPages (pageNumber 8192 4820) 8192 (areaSize sixtyPool.m.ipKeyInfoTotalSize) id ∧
      ¬FaultsRight (pageNumber 8192 4820) 8192 id sixtyPool 1 := by
  have size : areaSize sixtyPool.m.ipKeyInfoTotalSize = 4820 := by decide
  refine ⟨?_, ?_⟩
  · rw [size]
    exact vmallocPages_pageNumber 8192 4820
  · intro right
    have installed := right.inside (by rw [size]; decide)
    exact absurd installed (by decide)

end Linguafranca.Ipshark2
