import Mathlib.Data.List.Basic
import Zigmaos.PageTable

/-!
# Copies between the kernel and a user address space

Physical memory is addressed in bytes. Each copy also reports the bytes of user
memory that it has touched, in order, with the physical address it has used.
-/
namespace Zigmaos.Memory

abbrev PhysicalMemory := ℕ → UInt8

def maxVirtualAddress : ℕ := maxVirtualPage * pageSize

def pageOffset (address : ℕ) : ℕ := address % pageSize
def pageAlignDown (address : ℕ) : ℕ := address / pageSize * pageSize

inductive CopyError
  | outOfRange | invalidVirtualAddress | notValidPage | notUserPage | ranOutOfSpace
  deriving DecidableEq

def translateAddress (t : PageTable) (virtualAddress : ℕ) :
    Except CopyError ℕ :=
  if maxVirtualAddress ≤ virtualAddress then .error .outOfRange
  else match t.lookup (virtualAddress / pageSize) with
    | none => .error .invalidVirtualAddress
    | some none => .error .notValidPage
    | some (some pte) => if pte.user then .ok (pte.page * pageSize) else .error .notUserPage

namespace PhysicalMemory

def load (memory : PhysicalMemory) (address : ℕ) (count : ℕ) : List UInt8 :=
  (List.range count).map (fun i => memory (address + i))

def store (memory : PhysicalMemory) (address : ℕ) (bytes : List UInt8) :
    PhysicalMemory :=
  fun a => if address ≤ a then (bytes[a - address]?).getD (memory a) else memory a

@[simp] theorem length_load (memory : PhysicalMemory) (address : ℕ) (count : ℕ) :
    (memory.load address count).length = count := by simp [load]

theorem store_of_not_mem (memory : PhysicalMemory) (address a : ℕ)
    (bytes : List UInt8) (h : a < address ∨ address + bytes.length ≤ a) :
    memory.store address bytes a = memory a := by
  unfold store
  split
  · rw [List.getElem?_eq_none (by omega), Option.getD_none]
  · rfl

end PhysicalMemory

/-- A byte of user memory, and where the copy has found it. -/
structure Access where
  virtualAddress : ℕ
  physicalAddress : ℕ

def accessRange (virtualAddress : ℕ) (physicalAddress : ℕ) (count : ℕ) :
    List Access :=
  (List.range count).map (fun i => ⟨virtualAddress + i, physicalAddress + i⟩)

/-- The bytes up to the end of the page, and no more than remain. -/
def byteCount (address : ℕ) (remaining : ℕ) : ℕ :=
  min (pageSize - pageOffset address) remaining

theorem byteCount_pos {remaining : ℕ} (address : ℕ) (h : 0 < remaining) :
    0 < byteCount address remaining := by
  simp only [byteCount, pageOffset, pageSize]
  omega

theorem byteCount_le (address : ℕ) (remaining : ℕ) :
    byteCount address remaining ≤ remaining := Nat.min_le_right _ _

def copyOut (t : PageTable) (memory : PhysicalMemory) (destination : ℕ)
    (source : List UInt8) : Except CopyError Unit × PhysicalMemory × List Access :=
  if source = [] then (.ok (), memory, [])
  else match translateAddress t (pageAlignDown destination) with
    | .error e => (.error e, memory, [])
    | .ok physicalPage =>
      let physicalDestination := physicalPage + pageOffset destination
      let count := byteCount destination source.length
      let rest := copyOut t (memory.store physicalDestination (source.take count))
        (destination + count) (source.drop count)
      (rest.1, rest.2.1, accessRange destination physicalDestination count ++ rest.2.2)
termination_by source.length
decreasing_by
  have := byteCount_pos destination (List.length_pos_iff.mpr ‹_›)
  have := List.length_pos_iff.mpr ‹_›
  simp only [List.length_drop]
  omega

def copyIn (t : PageTable) (memory : PhysicalMemory) (destination : List UInt8)
    (source : ℕ) : Except CopyError Unit × List UInt8 × List Access :=
  if destination = [] then (.ok (), [], [])
  else match translateAddress t (pageAlignDown source) with
    | .error e => (.error e, destination, [])
    | .ok physicalPage =>
      let physicalSource := physicalPage + pageOffset source
      let count := byteCount source destination.length
      let rest := copyIn t memory (destination.drop count) (source + count)
      (rest.1, memory.load physicalSource count ++ rest.2.1,
        accessRange source physicalSource count ++ rest.2.2)
termination_by destination.length
decreasing_by
  have := byteCount_pos source (List.length_pos_iff.mpr ‹_›)
  have := List.length_pos_iff.mpr ‹_›
  simp only [List.length_drop]
  omega

/-- `length` counts the bytes of the turns before; what is returned does not
count the terminator. -/
def copyInString (t : PageTable) (memory : PhysicalMemory) (destination : List UInt8)
    (source : ℕ) (length : ℕ) : Except CopyError ℕ × List UInt8 × List Access :=
  if destination = [] then (.error .ranOutOfSpace, [], [])
  else match translateAddress t (pageAlignDown source) with
    | .error e => (.error e, destination, [])
    | .ok physicalPage =>
      let count := byteCount source destination.length
      let physicalSource := physicalPage + pageOffset source
      let bytes := memory.load physicalSource count
      match bytes.findIdx? (· = 0) with
      | some i => (.ok (length + i), bytes.take (i + 1) ++ destination.drop (i + 1),
          accessRange source physicalSource (i + 1))
      | none =>
        let rest := copyInString t memory (destination.drop count) (source + count)
          (length + count)
        (rest.1, bytes ++ rest.2.1, accessRange source physicalSource count ++ rest.2.2)
termination_by destination.length
decreasing_by
  have := byteCount_pos source (List.length_pos_iff.mpr ‹_›)
  have := List.length_pos_iff.mpr ‹_›
  simp only [List.length_drop]
  omega

/-! ## What a copy touches -/

/-- Where a copy finds the byte, on a valid page of the user. -/
def byteAddress (t : PageTable) (address : ℕ) : Option ℕ :=
  match translateAddress t (pageAlignDown address) with
  | .error _ => none
  | .ok physicalPage => some (physicalPage + pageOffset address)

/-- The bytes from an address on, up to the first that is not on a valid page of
the user, and not past a byte that stops the copy. -/
def accesses (t : PageTable) (stop : ℕ → Bool) (address : ℕ) :
    ℕ → List Access
  | 0 => []
  | n + 1 =>
    match byteAddress t address with
    | none => []
    | some a => ⟨address, a⟩ :: if stop a then [] else accesses t stop (address + 1) n

theorem byteAddress_eq_some {t : PageTable} {address : ℕ} {a : ℕ} :
    byteAddress t address = some a ↔ address < maxVirtualAddress ∧
      ∃ pte, t.leaf (address / pageSize) = some pte ∧ pte.user = true ∧
        a = pte.page * pageSize + pageOffset address := by
  have hpage : pageAlignDown address / pageSize = address / pageSize := by
    simp only [pageAlignDown, pageSize]
    omega
  have hrange : maxVirtualAddress ≤ pageAlignDown address ↔ maxVirtualAddress ≤ address := by
    simp only [maxVirtualAddress, maxVirtualPage, pageAlignDown, pageSize]
    omega
  unfold byteAddress translateAddress PageTable.leaf
  rw [hpage]
  by_cases h : maxVirtualAddress ≤ address
  · simp only [if_pos (hrange.mpr h), reduceCtorEq, Nat.not_lt.mpr h, false_and]
  · rw [if_neg (fun h' => h (hrange.mp h'))]
    rcases t.lookup (address / pageSize) with _ | _ | pte
    · simp
    · simp
    · by_cases hu : pte.user = true
      · simp only [hu, if_true, Option.some.injEq, Nat.not_le.mp h, true_and, Option.join_some,
          exists_eq_left', eq_comm]
      · simp [hu]

/-- On one page, the next byte lies after this one. -/
theorem byteAddress_succ {t : PageTable} {address : ℕ} {a : ℕ}
    (h : byteAddress t address = some a) (hpage : pageOffset address + 1 < pageSize) :
    byteAddress t (address + 1) = some (a + 1) := by
  rw [byteAddress_eq_some] at *
  obtain ⟨hrange, pte, hpte, huser, rfl⟩ := h
  simp only [pageOffset, pageSize, maxVirtualAddress, maxVirtualPage] at *
  have hsame : (address + 1) / 4096 = address / 4096 := by omega
  refine ⟨by omega, pte, by rw [hsame]; exact hpte, huser, by omega⟩

theorem byteAddress_add {t : PageTable} {address : ℕ} {a : ℕ} {i : ℕ}
    (h : byteAddress t address = some a) (hpage : pageOffset address + i < pageSize) :
    byteAddress t (address + i) = some (a + i) := by
  induction i with
  | zero => exact h
  | succ i ih =>
    have hoffset : pageOffset (address + i) + 1 < pageSize := by
      simp only [pageOffset, pageSize] at *
      omega
    exact byteAddress_succ (ih (by omega)) hoffset

theorem accessRange_succ (address : ℕ) (a : ℕ) (n : ℕ) :
    accessRange address a (n + 1) = ⟨address, a⟩ :: accessRange (address + 1) (a + 1) n := by
  rw [accessRange, List.range_succ_eq_map, List.map_cons, List.map_map, accessRange]
  simp only [Function.comp_def, Nat.succ_eq_add_one, add_zero, add_assoc, add_comm 1]

/-- A turn of a copy touches the bytes that single steps would. -/
theorem accesses_chunk {t : PageTable} {stop : ℕ → Bool} {address : ℕ}
    {a : ℕ} {count : ℕ} (n : ℕ) (h : byteAddress t address = some a)
    (hpage : pageOffset address + count ≤ pageSize) (hstop : ∀ i < count, stop (a + i) = false) :
    accesses t stop address (count + n) =
      accessRange address a count ++ accesses t stop (address + count) n := by
  induction count generalizing address a with
  | zero => simp [accessRange]
  | succ count ih =>
    have hstep : accesses t stop address (count + 1 + n) =
        ⟨address, a⟩ :: accesses t stop (address + 1) (count + n) := by
      have hfirst : stop a = false := hstop 0 (by omega)
      rw [add_right_comm, accesses, h]
      simp [hfirst]
    rw [hstep, accessRange_succ, List.cons_append]
    congr 1
    obtain rfl | hcount := Nat.eq_zero_or_pos count
    · simp [accessRange]
    · have hnext := byteAddress_succ h (by omega)
      rw [ih hnext (by simp only [pageOffset, pageSize] at *; omega)
        (fun i hi => by rw [add_right_comm, add_assoc]; exact hstop (i + 1) (by omega)),
        add_assoc, add_comm 1]

/-- A turn that meets a byte that stops the copy ends with it. -/
theorem accesses_stop {t : PageTable} {stop : ℕ → Bool} {address : ℕ}
    {a : ℕ} {i n : ℕ} (h : byteAddress t address = some a) (hi : i < n)
    (hpage : pageOffset address + i < pageSize) (hstop : ∀ j < i, stop (a + j) = false)
    (hlast : stop (a + i) = true) :
    accesses t stop address n = accessRange address a (i + 1) := by
  obtain ⟨m, rfl⟩ : ∃ m, n = i + (m + 1) := ⟨n - i - 1, by omega⟩
  rw [accesses_chunk (m + 1) h (by omega) hstop, accesses, byteAddress_add h hpage]
  simp [hlast, accessRange, List.range_succ]

/-- The copy gets as far as the byte `k` places on. -/
def Reaches (t : PageTable) (stop : ℕ → Bool) (address : ℕ) (k : ℕ) : Prop :=
  (byteAddress t (address + k)).isSome ∧
    ∀ j < k, ∃ a, byteAddress t (address + j) = some a ∧ stop a = false

theorem mem_accesses {t : PageTable} {stop : ℕ → Bool} {address : ℕ}
    {n : ℕ} {x : Access} :
    x ∈ accesses t stop address n ↔ ∃ k < n, Reaches t stop address k ∧
      x.virtualAddress = address + k ∧ byteAddress t (address + k) = some x.physicalAddress := by
  induction n generalizing address with
  | zero => simp [accesses]
  | succ n ih =>
    rw [accesses]
    cases h : byteAddress t address with
    | none =>
      refine iff_of_false List.not_mem_nil ?_
      rintro ⟨k, -, ⟨hsome, hbefore⟩, -⟩
      obtain rfl | hk := Nat.eq_zero_or_pos k
      · simp [h] at hsome
      · obtain ⟨a, ha, -⟩ := hbefore 0 hk
        simp [h] at ha
    | some a =>
      rw [List.mem_cons]
      constructor
      · rintro (rfl | hx)
        · exact ⟨0, by omega, ⟨by simp [h], fun j hj => absurd hj (by omega)⟩, rfl, h⟩
        · split at hx
          · exact absurd hx List.not_mem_nil
          next hstop =>
            obtain ⟨k, hk, ⟨hsome, hbefore⟩, hv, ha⟩ := ih.mp hx
            have hadd : address + (k + 1) = address + 1 + k := by omega
            refine ⟨k + 1, by omega, ⟨by rw [hadd]; exact hsome, ?_⟩, by rw [hadd]; exact hv,
              by rw [hadd]; exact ha⟩
            intro j hj
            obtain rfl | hpos := Nat.eq_zero_or_pos j
            · exact ⟨a, h, by simpa using hstop⟩
            · obtain ⟨b, hb, hs⟩ := hbefore (j - 1) (by omega)
              exact ⟨b, by rw [← hb]; congr 1; omega, hs⟩
      · rintro ⟨k, hk, ⟨hsome, hbefore⟩, hv, ha⟩
        obtain rfl | hpos := Nat.eq_zero_or_pos k
        · left
          rw [add_zero, h] at ha
          cases x
          simp only [add_zero, Option.some.injEq] at *
          rw [hv, ha]
        · right
          obtain ⟨b, hb, hs⟩ := hbefore 0 hpos
          have hab : a = b := by simpa [h] using hb
          rw [if_neg (by rw [hab, hs]; exact Bool.false_ne_true)]
          have hadd : address + k = address + 1 + (k - 1) := by omega
          rw [hadd] at hsome hv ha
          refine ih.mpr ⟨k - 1, by omega, ⟨hsome, fun j hj => ?_⟩, hv, ha⟩
          obtain ⟨b, hb, hs⟩ := hbefore (j + 1) (by omega)
          exact ⟨b, by rw [← hb]; congr 1; omega, hs⟩

/-- The stop condition of copies that have none. -/
def never : ℕ → Bool := fun _ => false

/-- Where `copyInString` stops. -/
def isTerminator (memory : PhysicalMemory) : ℕ → Bool := fun a => memory a = 0

theorem byteAddress_of_ok {t : PageTable} {address page : ℕ}
    (h : translateAddress t (pageAlignDown address) = .ok page) :
    byteAddress t address = some (page + pageOffset address) := by
  rw [byteAddress, h]

theorem byteAddress_of_error {t : PageTable} {address : ℕ} {e : CopyError}
    (h : translateAddress t (pageAlignDown address) = .error e) :
    byteAddress t address = none := by
  rw [byteAddress, h]

theorem accesses_of_error {t : PageTable} {stop : ℕ → Bool} {address n : ℕ} {e : CopyError}
    (h : translateAddress t (pageAlignDown address) = .error e) :
    accesses t stop address n = [] := by
  cases n with
  | zero => rfl
  | succ n => rw [accesses, byteAddress_of_error h]

theorem byteCount_offset (address remaining : ℕ) :
    pageOffset address + byteCount address remaining ≤ pageSize := by
  simp only [byteCount, pageOffset, pageSize]
  omega

/-- One turn of `copyOut` and of `copyIn`. -/
theorem accesses_turn {t : PageTable} {stop : ℕ → Bool} {address page n : ℕ}
    (h : translateAddress t (pageAlignDown address) = .ok page)
    (hstop : ∀ i < byteCount address n, stop (page + pageOffset address + i) = false) :
    accesses t stop address n =
      accessRange address (page + pageOffset address) (byteCount address n) ++
        accesses t stop (address + byteCount address n) (n - byteCount address n) := by
  rw [← accesses_chunk (n - byteCount address n) (byteAddress_of_ok h) (byteCount_offset ..) hstop,
    Nat.add_sub_of_le (byteCount_le ..)]

/-- The bytes of a turn lie on a valid page of the user. -/
theorem isSome_turn {t : PageTable} {address page n k : ℕ}
    (h : translateAddress t (pageAlignDown address) = .ok page) (hk : k < byteCount address n) :
    (byteAddress t (address + k)).isSome := by
  have := byteCount_offset address n
  rw [byteAddress_add (byteAddress_of_ok h) (by omega)]
  rfl

theorem copyOut_accesses (t : PageTable) (memory : PhysicalMemory) (destination : ℕ)
    (source : List UInt8) :
    (copyOut t memory destination source).2.2 = accesses t never destination source.length := by
  fun_induction copyOut t memory destination source with
  | case1 => rfl
  | case2 memory destination source _ e h => exact (accesses_of_error h).symm
  | case3 memory destination source _ page h physicalDestination count rest ih =>
    rw [accesses_turn h (fun _ _ => rfl)]
    simp only [rest, count, physicalDestination, ih, List.length_drop]

theorem copyOut_ok (t : PageTable) (memory : PhysicalMemory) (destination : ℕ)
    (source : List UInt8) (hok : (copyOut t memory destination source).1 = .ok ()) :
    ∀ k < source.length, (byteAddress t (destination + k)).isSome := by
  fun_induction copyOut t memory destination source with
  | case1 => exact fun k hk => absurd hk (Nat.not_lt_zero k)
  | case2 => exact absurd hok nofun
  | case3 memory destination source _ page h physicalDestination count rest ih =>
    intro k hk
    by_cases hturn : k < count
    · exact isSome_turn h hturn
    · have hrest := ih hok (k - count) (by rw [List.length_drop]; omega)
      rwa [add_assoc, Nat.add_sub_of_le (by omega)] at hrest

/-- Only bytes that are reported are written. -/
theorem copyOut_frame (t : PageTable) (memory : PhysicalMemory) (destination : ℕ)
    (source : List UInt8) (a : ℕ)
    (h : ∀ x ∈ (copyOut t memory destination source).2.2, x.physicalAddress ≠ a) :
    (copyOut t memory destination source).2.1 a = memory a := by
  fun_induction copyOut t memory destination source with
  | case1 => rfl
  | case2 => rfl
  | case3 memory destination source _ page _ physicalDestination count rest ih =>
    simp only [List.mem_append] at h
    rw [ih (fun x hx => h x (.inr hx))]
    refine PhysicalMemory.store_of_not_mem _ _ _ _ ?_
    by_contra hin
    rw [List.length_take] at hin
    refine h ⟨destination + (a - physicalDestination), a⟩ (.inl ?_) rfl
    rw [accessRange, List.mem_map]
    refine ⟨a - physicalDestination, List.mem_range.mpr (by omega), ?_⟩
    simp only [Access.mk.injEq, true_and]
    omega

theorem copyIn_accesses (t : PageTable) (memory : PhysicalMemory) (destination : List UInt8)
    (source : ℕ) :
    (copyIn t memory destination source).2.2 = accesses t never source destination.length := by
  fun_induction copyIn t memory destination source with
  | case1 => rfl
  | case2 destination source _ e h => exact (accesses_of_error h).symm
  | case3 destination source _ page h physicalSource count rest ih =>
    rw [accesses_turn h (fun _ _ => rfl)]
    simp only [rest, count, physicalSource, ih, List.length_drop]

theorem copyIn_ok (t : PageTable) (memory : PhysicalMemory) (destination : List UInt8)
    (source : ℕ) (hok : (copyIn t memory destination source).1 = .ok ()) :
    ∀ k < destination.length, (byteAddress t (source + k)).isSome := by
  fun_induction copyIn t memory destination source with
  | case1 => exact fun k hk => absurd hk (Nat.not_lt_zero k)
  | case2 => exact absurd hok nofun
  | case3 destination source _ page h physicalSource count rest ih =>
    intro k hk
    by_cases hturn : k < count
    · exact isSome_turn h hturn
    · have hrest := ih hok (k - count) (by rw [List.length_drop]; omega)
      rwa [add_assoc, Nat.add_sub_of_le (by omega)] at hrest

/-- The terminator is looked for in the bytes of the turn. -/
theorem findIdx?_load_eq_some {memory : PhysicalMemory} {a count i : ℕ}
    (h : (memory.load a count).findIdx? (· = 0) = some i) :
    i < count ∧ isTerminator memory (a + i) = true ∧
      ∀ j < i, isTerminator memory (a + j) = false := by
  obtain ⟨hi, hzero, hbefore⟩ := List.findIdx?_eq_some_iff_getElem.mp h
  rw [PhysicalMemory.length_load] at hi
  refine ⟨hi, by simpa [PhysicalMemory.load, isTerminator] using hzero, fun j hj => ?_⟩
  simpa [PhysicalMemory.load, isTerminator] using hbefore j hj

theorem findIdx?_load_eq_none {memory : PhysicalMemory} {a count : ℕ}
    (h : (memory.load a count).findIdx? (· = 0) = none) :
    ∀ j < count, isTerminator memory (a + j) = false := by
  intro j hj
  have := List.findIdx?_eq_none_iff.mp h (memory (a + j))
    (List.mem_map.mpr ⟨j, List.mem_range.mpr hj, rfl⟩)
  simpa [isTerminator] using this

theorem copyInString_accesses (t : PageTable) (memory : PhysicalMemory) (destination : List UInt8)
    (source length : ℕ) :
    (copyInString t memory destination source length).2.2 =
      accesses t (isTerminator memory) source destination.length := by
  fun_induction copyInString t memory destination source length with
  | case1 => rfl
  | case2 destination source length _ e h => exact (accesses_of_error h).symm
  | case3 destination source length _ page h count physicalSource bytes i hi =>
    obtain ⟨hlt, hzero, hbefore⟩ := findIdx?_load_eq_some hi
    have := byteCount_le source destination.length
    have := byteCount_offset source destination.length
    exact (accesses_stop (byteAddress_of_ok h) (by omega) (by omega) hbefore hzero).symm
  | case4 destination source length _ page h count physicalSource bytes hnone rest ih =>
    rw [accesses_turn h (findIdx?_load_eq_none hnone)]
    simp only [rest, count, physicalSource, ih, List.length_drop]

theorem copyInString_ok (t : PageTable) (memory : PhysicalMemory) (destination : List UInt8)
    (source length : ℕ) {r : ℕ}
    (hok : (copyInString t memory destination source length).1 = .ok r) :
    ∃ i < destination.length, r = length + i ∧ Reaches t (isTerminator memory) source i := by
  fun_induction copyInString t memory destination source length with
  | case1 => exact absurd hok nofun
  | case2 => exact absurd hok nofun
  | case3 destination source length _ page h count physicalSource bytes i hi =>
    obtain ⟨hlt, -, hbefore⟩ := findIdx?_load_eq_some hi
    have hle := byteCount_le source destination.length
    have hoffset := byteCount_offset source destination.length
    obtain rfl : length + i = r := by simpa using hok
    exact ⟨i, by omega, rfl, isSome_turn h hlt, fun j hj =>
      ⟨_, byteAddress_add (byteAddress_of_ok h) (by omega), hbefore j hj⟩⟩
  | case4 destination source length _ page h count physicalSource bytes hnone rest ih =>
    obtain ⟨i, hi, rfl, hsome, hbefore⟩ := ih hok
    have hoffset := byteCount_offset source destination.length
    rw [List.length_drop] at hi
    refine ⟨count + i, by omega, by omega, by rw [← add_assoc]; exact hsome, fun j hj => ?_⟩
    by_cases hturn : j < count
    · exact ⟨_, byteAddress_add (byteAddress_of_ok h) (by omega),
        findIdx?_load_eq_none hnone j hturn⟩
    · obtain ⟨a, ha, hs⟩ := hbefore (j - count) (by omega)
      refine ⟨a, ?_, hs⟩
      rwa [add_assoc, Nat.add_sub_of_le (by omega)] at ha

/-! ## Permissions -/

/-- The byte lies on a valid page of the user that has the permission, at the
physical address `a`. -/
def Permitted (t : PageTable) (permission : PagePermissions → Bool) (address a : ℕ) : Prop :=
  address < maxVirtualAddress ∧ ∃ pte, t.leaf (address / pageSize) = some pte ∧ pte.user = true ∧
    permission pte.permissions = true ∧ a = pte.page * pageSize + pageOffset address

/-- Whatever a copy touches is permitted. -/
def Respects (t : PageTable) (permission : PagePermissions → Bool) (touched : List Access) :
    Prop :=
  ∀ x ∈ touched, Permitted t permission x.virtualAddress x.physicalAddress

/-- The page of the byte has the permission, if it is mapped at all. -/
def PageAllows (t : PageTable) (permission : PagePermissions → Bool) (address : ℕ) : Prop :=
  ∀ pte, t.leaf (address / pageSize) = some pte → permission pte.permissions = true

theorem permitted_iff {t : PageTable} {permission : PagePermissions → Bool} {address a : ℕ}
    (h : byteAddress t address = some a) :
    Permitted t permission address a ↔ PageAllows t permission address := by
  obtain ⟨hrange, pte, hpte, huser, ha⟩ := byteAddress_eq_some.mp h
  unfold Permitted PageAllows
  rw [hpte]
  constructor
  · rintro ⟨-, pte', ⟨rfl⟩, -, hp, -⟩ pte'' ⟨rfl⟩
    exact hp
  · exact fun hp => ⟨hrange, pte, rfl, huser, hp pte rfl, ha⟩

theorem respects_accesses {t : PageTable} {stop : ℕ → Bool} {address n : ℕ}
    {permission : PagePermissions → Bool} :
    Respects t permission (accesses t stop address n) ↔
      ∀ k < n, Reaches t stop address k → PageAllows t permission (address + k) := by
  constructor
  · intro h k hk hreach
    obtain ⟨a, ha⟩ := Option.isSome_iff_exists.mp hreach.1
    exact (permitted_iff ha).mp
      (h ⟨address + k, a⟩ (mem_accesses.mpr ⟨k, hk, hreach, rfl, ha⟩))
  · intro h x hx
    obtain ⟨k, hk, hreach, hv, ha⟩ := mem_accesses.mp hx
    rw [hv]
    exact (permitted_iff ha).mpr (h k hk hreach)

theorem reaches_never {t : PageTable} {address k : ℕ}
    (h : ∀ j ≤ k, (byteAddress t (address + j)).isSome) : Reaches t never address k := by
  refine ⟨h k le_rfl, fun j hj => ?_⟩
  obtain ⟨a, ha⟩ := Option.isSome_iff_exists.mp (h j hj.le)
  exact ⟨a, ha, rfl⟩

theorem Reaches.mono {t : PageTable} {stop : ℕ → Bool} {address i k : ℕ}
    (h : Reaches t stop address i) (hk : k ≤ i) : Reaches t stop address k := by
  obtain rfl | hlt := hk.eq_or_lt
  · exact h
  · obtain ⟨a, ha, -⟩ := h.2 k hlt
    exact ⟨by rw [ha]; rfl, fun j hj => h.2 j (by omega)⟩

/-- A copy touches only bytes that are permitted, and none of the bytes that it
should have touched when it completes is not permitted. -/
def CopyRespects (t : PageTable) (permission : PagePermissions → Bool) (touched : List Access)
    (completed : ℕ → Prop) : Prop :=
  Respects t permission touched ∧ ∀ address, completed address → ∃ a, Permitted t permission address a

theorem copyRespects_iff {t : PageTable} {permission : PagePermissions → Bool} {stop : ℕ → Bool}
    {address n : ℕ} {completed : ℕ → Prop}
    (h : ∀ b, completed b → ∃ k < n, b = address + k ∧ Reaches t stop address k) :
    CopyRespects t permission (accesses t stop address n) completed ↔
      ∀ k < n, Reaches t stop address k → PageAllows t permission (address + k) := by
  rw [CopyRespects, respects_accesses, and_iff_left_iff_imp]
  intro hallows b hb
  obtain ⟨k, hk, rfl, hreach⟩ := h b hb
  obtain ⟨a, ha⟩ := Option.isSome_iff_exists.mp hreach.1
  exact ⟨a, (permitted_iff ha).mpr (hallows k hk hreach)⟩

/-- The copies keep to the permissions exactly where each page that they reach
through valid pages of the user has them: they look at nothing but `valid` and
`user`. Only bytes that `copyOut` touches change. -/
theorem copies_respect_permissions_iff (t : PageTable) (memory : PhysicalMemory) (address : ℕ)
    (data : List UInt8) :
    (CopyRespects t (·.write) (copyOut t memory address data).2.2
        (fun b => (copyOut t memory address data).1 = .ok () ∧ ∃ k < data.length, b = address + k) ↔
      ∀ k < data.length, Reaches t never address k → PageAllows t (·.write) (address + k)) ∧
    (∀ a, (copyOut t memory address data).2.1 a ≠ memory a →
      ∃ x ∈ (copyOut t memory address data).2.2, x.physicalAddress = a) ∧
    (CopyRespects t (·.read) (copyIn t memory data address).2.2
        (fun b => (copyIn t memory data address).1 = .ok () ∧ ∃ k < data.length, b = address + k) ↔
      ∀ k < data.length, Reaches t never address k → PageAllows t (·.read) (address + k)) ∧
    (CopyRespects t (·.read) (copyInString t memory data address 0).2.2
        (fun b => ∃ r, (copyInString t memory data address 0).1 = .ok r ∧
          ∃ k ≤ r, b = address + k) ↔
      ∀ k < data.length, Reaches t (isTerminator memory) address k →
        PageAllows t (·.read) (address + k)) := by
  refine ⟨?_, ?_, ?_, ?_⟩
  · rw [copyOut_accesses]
    refine copyRespects_iff (fun b ⟨hok, k, hk, hb⟩ => ⟨k, hk, hb, ?_⟩)
    exact reaches_never (fun j hj => copyOut_ok t memory address data hok j (by omega))
  · intro a ha
    by_contra hnone
    push Not at hnone
    exact ha (copyOut_frame t memory address data a hnone)
  · rw [copyIn_accesses]
    refine copyRespects_iff (fun b ⟨hok, k, hk, hb⟩ => ⟨k, hk, hb, ?_⟩)
    exact reaches_never (fun j hj => copyIn_ok t memory data address hok j (by omega))
  · rw [copyInString_accesses]
    refine copyRespects_iff (fun b ⟨r, hok, k, hk, hb⟩ => ?_)
    obtain ⟨i, hi, hr, hreach⟩ := copyInString_ok t memory data address 0 hok
    exact ⟨k, by omega, hb, hreach.mono (by omega)⟩

structure ProgramHeaderFlags where
  execute : Bool
  write : Bool
  read : Bool

def ProgramHeaderFlags.toPagePermissions (f : ProgramHeaderFlags) : PagePermissions :=
  ⟨f.read, f.write, f.execute⟩

/-- One page of program text at address zero, as `exec` maps it. -/
def textTable : PageTable :=
  let leaf : LeafTable := .set (.empty 3) 0
    (some ⟨ProgramHeaderFlags.toPagePermissions ⟨true, false, true⟩, true, 4⟩)
  .set (.empty 1) 0 (some (.set (.empty 2) 0 (some leaf)))

theorem copyOut_nil (t : PageTable) (memory : PhysicalMemory) (destination : ℕ) :
    copyOut t memory destination [] = (.ok (), memory, []) := by
  rw [copyOut, if_pos rfl]

theorem copyOut_textTable : copyOut textTable (fun _ => 0) 0 [65] =
    (.ok (), PhysicalMemory.store (fun _ => 0) (4 * pageSize) [65], [⟨0, 4 * pageSize⟩]) := by
  have htranslate : translateAddress textTable (pageAlignDown 0) = .ok (4 * pageSize) := rfl
  have hcount : byteCount 0 [(65 : UInt8)].length = 1 := by decide
  rw [copyOut, if_neg (List.cons_ne_nil _ _), htranslate]
  simp only [hcount, List.take_succ_cons, List.take_zero, List.drop_succ_cons, List.drop_zero,
    copyOut_nil]
  rfl

/-- A byte is copied out to a page of program text. -/
theorem copyOut_writes_text :
    (copyOut textTable (fun _ => 0) 0 [65]).1 = .ok () ∧
      (copyOut textTable (fun _ => 0) 0 [65]).2.1 (4 * pageSize) = 65 ∧
      ¬ CopyRespects textTable (·.write) (copyOut textTable (fun _ => 0) 0 [65]).2.2
        (fun b => (copyOut textTable (fun _ => 0) 0 [65]).1 = .ok () ∧
          ∃ k < [(65 : UInt8)].length, b = 0 + k) := by
  rw [copyOut_textTable]
  refine ⟨rfl, rfl, fun h => ?_⟩
  obtain ⟨-, pte, hpte, -, hwrite, -⟩ := h.1 _ (List.mem_singleton.mpr rfl)
  have htext : textTable.leaf (0 / pageSize) =
      some ⟨ProgramHeaderFlags.toPagePermissions ⟨true, false, true⟩, true, 4⟩ := rfl
  rw [htext] at hpte
  cases hpte
  exact absurd hwrite Bool.false_ne_true

end Zigmaos.Memory
