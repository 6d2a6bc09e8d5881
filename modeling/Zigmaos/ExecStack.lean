import Zigmaos.ExecFileSafety
import Zigmaos.UserCopies

/-!
# The argument stack of a new program

The strings lie one below the other from the top of the stack page, each rounded
up to 16 bytes with its terminator, and the array of pointers lies below them.
-/
namespace Zigmaos.ExecFile
open Memory
open LittleEndian (byteLE)
open ProcessMemory (maxArg TableOk)

/-! ## Addresses -/

/-- Every byte of the page is mapped for the user. -/
def PageMapped (t : PageTable) (base : ℕ) : Prop :=
  ∀ o < pageSize, (byteAddress t (base + o)).isSome

/-- In the page, what is not in the range is as it was. -/
def KeepsPage (t : PageTable) (base : ℕ) (memory memory' : PhysicalMemory) (low high : ℕ) : Prop :=
  ∀ a, base ≤ a → a < base + pageSize → a < low ∨ high ≤ a →
    userByte t memory' a = userByte t memory a

section Copies
variable {t : PageTable} {memory memory' memory₁ memory₂ : PhysicalMemory}
  {base low high address : ℕ} {bytes : List UInt8}

theorem KeepsPage.trans {low' high' : ℕ} (h : KeepsPage t base memory memory₁ low high)
    (h' : KeepsPage t base memory₁ memory₂ low' high') :
    KeepsPage t base memory memory₂ (min low low') (max high high') := by
  intro a hbase htop hout
  rw [h' a hbase htop (by omega), h a hbase htop (by omega)]

theorem KeepsPage.mono {low' high' : ℕ} (h : KeepsPage t base memory memory' low high)
    (hlow : low' ≤ low) (hhigh : high ≤ high') :
    KeepsPage t base memory memory' low' high' :=
  fun a hbase htop hout => h a hbase htop (by omega)

theorem KeepsPage.holds (h : Holds t memory address bytes)
    (hkeep : KeepsPage t base memory memory' low high) (hbase : base ≤ address)
    (htop : address + bytes.length ≤ base + pageSize)
    (hout : address + bytes.length ≤ low ∨ high ≤ address) : Holds t memory' address bytes := by
  intro k hk
  rw [hkeep _ (by omega) (by omega) (by omega)]
  exact h k hk

theorem PageMapped.isSome (h : PageMapped t base) {a : ℕ} (hbase : base ≤ a)
    (htop : a < base + pageSize) : (byteAddress t a).isSome := by
  have hsome := h (a - base) (by omega)
  rwa [Nat.add_sub_of_le hbase] at hsome

end Copies

/-! ## Pushing -/

section Stack
variable {t : PageTable} (memory : PhysicalMemory) {stackBase stackPointer : ℕ}
  {argv : List (List UInt8)}

/-- The words of the array. -/
def words (userStack : List ℕ) : List UInt8 :=
  userStack.flatMap (fun p => (List.range 8).map (byteLE p))

end Stack

/-! ## What `main` finds -/

/-- The pages of the guard and of the stack, which come after the program. -/
def allocStack (img : Image) : Except Memory.Panic (Option ℕ × PageTable × Allocator) :=
  let alignedProgramSize := pageCount img.programSize * pageSize
  img.pageTable.alloc img.allocator alignedProgramSize (alignedProgramSize + 2 * pageSize) .data

theorem clearUser_leaf {t t' : PageTable} {v w : ℕ} (h : t.clearUser v = .ok t')
    (hw : w < maxVirtualPage) (hne : w ≠ v) : t'.leaf w = t.leaf w := by
  unfold PageTable.clearUser at h
  split at h
  · cases h
  · split at h
    · cases h
    next pte hlookup =>
      cases h
      rw [PageTable.leaf_setEntry t _ (by omega) hw (by rw [hlookup]; rfl), if_neg hne]

section Exec
variable {total : Multiset Page} {img : Image} {argv : List (List UInt8)} {size : ℕ} {t : PageTable}
  {a : Allocator}

end Exec

/-- `exec` has made a table, and has loaded the file. -/
def Loads (s : State) (content : List UInt8) (entry : ℕ) (img : Image) : Prop :=
  ∃ t a, createPagetable s.trampoline s.process.trapFrame s.allocator = .ok (some t, a) ∧
    loadFile content ⟨t, a, s.memory, 0⟩ = .ok (.ok entry, img)

theorem Loads.image {s : State} {content : List UInt8} {argv : List (List UInt8)} {entry : ℕ}
    {img : Image} (hload : Loads s content entry img) (h : Ready s (some content) argv)
    (hcount : argv.length ≤ maxArg) (hflagged : EachHeader s (some content) argv FlaggedAt) :
    ImageOk s.allocator.pages img := by
  obtain ⟨t, a, hcreate, hfile⟩ := hload
  obtain ⟨r, a', hcreate', -, hsome⟩ := created_image s
  rw [hcreate] at hcreate'
  cases hcreate'
  unfold loadFile at hfile
  split at hfile
  · cases hfile
  next elfHeader helf =>
    have hspec := loadProgram_spec (hsome t rfl) elfHeader 0
      (n := elfHeader.programHeaderEntryNum) (h.file content rfl) (fun j hj img' harrives => by
        rw [Nat.zero_add]
        exact hflagged content elfHeader j img' rfl ⟨hcount, helf, hj, t, a, hcreate, harrives⟩)
    obtain ⟨-, f, hf⟩ | ⟨-, r, img₁, hr, hok, -⟩ := hspec
    · rw [hf] at hfile
      cases hfile
    · rw [hr] at hfile
      cases r with
      | error e => cases hfile
      | ok u =>
        cases hfile
        exact hok

end Zigmaos.ExecFile
