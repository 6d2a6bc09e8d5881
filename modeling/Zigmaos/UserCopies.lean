import Zigmaos.Boundary

/-!
# What the copies do to user memory

User memory is a partial function from addresses to bytes, where no two pages of
the user share a frame. The copies read and write it byte for byte.
-/
namespace Zigmaos.Memory

/-- The user's pages lie on pairwise distinct frames. -/
def DistinctFrames (t : PageTable) : Prop :=
  ∀ v < maxVirtualPage, ∀ w < maxVirtualPage, ∀ p q, t.leaf v = some p → t.leaf w = some q →
    p.user = true → q.user = true → p.page = q.page → v = w

/-- The page of the byte is mapped for the user, and below `max_virtual_address`. -/
def UserMapped (t : PageTable) (address : ℕ) : Prop :=
  address < maxVirtualAddress ∧ ∃ pte, t.leaf (address / pageSize) = some pte ∧ pte.user = true

/-- A byte of user memory, where it is mapped. -/
def userByte (t : PageTable) (memory : PhysicalMemory) (address : ℕ) : Option UInt8 :=
  (byteAddress t address).map memory

variable {t : PageTable} {memory : PhysicalMemory} {va a : ℕ}

theorem isSome_byteAddress_iff : (byteAddress t va).isSome ↔ UserMapped t va := by
  rw [Option.isSome_iff_exists]
  constructor
  · rintro ⟨a, ha⟩
    obtain ⟨hlt, pte, hpte, huser, -⟩ := byteAddress_eq_some.mp ha
    exact ⟨hlt, pte, hpte, huser⟩
  · rintro ⟨hlt, pte, hpte, huser⟩
    exact ⟨_, byteAddress_eq_some.mpr ⟨hlt, pte, hpte, huser, rfl⟩⟩

theorem DistinctFrames.byteAddress_inj (h : DistinctFrames t) {x y : ℕ}
    (hx : byteAddress t x = some a) (hy : byteAddress t y = some a) : x = y := by
  obtain ⟨hxlt, p, hp, hpu, rfl⟩ := byteAddress_eq_some.mp hx
  obtain ⟨hylt, q, hq, hqu, heq⟩ := byteAddress_eq_some.mp hy
  simp only [maxVirtualAddress, pageOffset, pageSize] at *
  have hframe : p.page = q.page := by
    have hframe : ∀ n i : ℕ, (n * 4096 + i % 4096) / 4096 = n := fun n i => by omega
    rw [← hframe p.page x, heq, hframe]
  have hpage := h (x / 4096) (by omega) (y / 4096) (by omega) p q hp hq hpu hqu hframe
  rw [hframe] at heq
  omega

/-! ## Success -/

theorem copyOut_ok_iff (t : PageTable) (memory : PhysicalMemory) (destination : ℕ)
    (source : List UInt8) : (copyOut t memory destination source).1 = .ok () ↔
      ∀ k < source.length, (byteAddress t (destination + k)).isSome := by
  refine ⟨copyOut_ok t memory destination source, fun h => ?_⟩
  fun_induction copyOut t memory destination source with
  | case1 => rfl
  | case2 memory destination source hne e he =>
    have hsome := h 0 (List.length_pos_iff.mpr hne)
    rw [add_zero, byteAddress_of_error he] at hsome
    cases hsome
  | case3 memory destination source hne page hp physicalDestination count rest ih =>
    refine ih fun k hk => ?_
    rw [List.length_drop] at hk
    rw [add_assoc]
    exact h (count + k) (by omega)

theorem copyIn_ok_iff (t : PageTable) (memory : PhysicalMemory) (destination : List UInt8)
    (source : ℕ) : (copyIn t memory destination source).1 = .ok () ↔
      ∀ k < destination.length, (byteAddress t (source + k)).isSome := by
  refine ⟨copyIn_ok t memory destination source, fun h => ?_⟩
  fun_induction copyIn t memory destination source with
  | case1 => rfl
  | case2 destination source hne e he =>
    have hsome := h 0 (List.length_pos_iff.mpr hne)
    rw [add_zero, byteAddress_of_error he] at hsome
    cases hsome
  | case3 destination source hne page hp physicalSource count rest ih =>
    refine ih fun k hk => ?_
    rw [List.length_drop] at hk
    rw [add_assoc]
    exact h (count + k) (by omega)

/-! ## Bytes -/

/-- `copyOut` changes no byte but those that its range is mapped to. -/
theorem copyOut_unchanged (destination : ℕ) (source : List UInt8)
    (ha : ∀ k < source.length, byteAddress t (destination + k) ≠ some a) :
    (copyOut t memory destination source).2.1 a = memory a := by
  apply copyOut_frame
  intro x hx hxa
  rw [copyOut_accesses] at hx
  obtain ⟨k, hk, -, -, hphys⟩ := mem_accesses.mp hx
  rw [hxa] at hphys
  exact ha k hk hphys

/-- Whether or not it succeeds, `copyOut` leaves user memory outside of its range alone. -/
theorem copyOut_outside (h : DistinctFrames t) (destination : ℕ) (source : List UInt8)
    (hva : va < destination ∨ destination + source.length ≤ va) :
    userByte t (copyOut t memory destination source).2.1 va = userByte t memory va := by
  unfold userByte
  cases ha : byteAddress t va with
  | none => rfl
  | some a =>
    simp only [Option.map_some]
    rw [copyOut_unchanged]
    intro k hk hphys
    have heq := h.byteAddress_inj ha hphys
    omega

theorem store_apply (memory : PhysicalMemory) (address : ℕ) {bytes : List UInt8} {i : ℕ}
    (hi : i < bytes.length) : memory.store address bytes (address + i) = bytes[i] := by
  simp [PhysicalMemory.store, hi]

/-- Where `copyOut` succeeds, the bytes of its range are those of the source. -/
theorem copyOut_inside (h : DistinctFrames t) (destination : ℕ) (source : List UInt8)
    (hok : (copyOut t memory destination source).1 = .ok ()) : ∀ k (hk : k < source.length),
    userByte t (copyOut t memory destination source).2.1 (destination + k) = some source[k] := by
  fun_induction copyOut t memory destination source with
  | case1 => exact fun k hk => absurd hk (Nat.not_lt_zero k)
  | case2 => cases hok
  | case3 memory destination source hne page hp physicalDestination count rest ih =>
    intro k hk
    have hcount : count ≤ source.length := byteCount_le _ _
    by_cases hturn : k < count
    · have hoffset := byteCount_offset destination source.length
      have haddr : byteAddress t (destination + k) = some (physicalDestination + k) :=
        byteAddress_add (byteAddress_of_ok hp) (by omega)
      rw [copyOut_outside h _ _ (.inl (by omega)), userByte, haddr, Option.map_some,
        store_apply _ _ (by rw [List.length_take]; omega), List.getElem_take]
    · have hrest := ih hok (k - count) (by rw [List.length_drop]; omega)
      have hadd : destination + count + (k - count) = destination + k := by omega
      rw [hadd] at hrest
      simp only [List.getElem_drop, Nat.add_sub_of_le (Nat.not_lt.mp hturn)] at hrest
      exact hrest

/-- Two bytes that are less than a page apart are never one byte of a frame. -/
theorem byteAddress_ne {x y : ℕ} (hlt : x < y) (hpage : y < x + pageSize)
    (hx : byteAddress t x = some a) : byteAddress t y ≠ some a := by
  intro hy
  obtain ⟨-, p, -, -, rfl⟩ := byteAddress_eq_some.mp hx
  obtain ⟨-, q, -, -, hframe⟩ := byteAddress_eq_some.mp hy
  simp only [pageOffset, pageSize] at *
  omega

/-- The bytes are in user memory from the address on. -/
def Holds (t : PageTable) (memory : PhysicalMemory) (address : ℕ) (bytes : List UInt8) : Prop :=
  ∀ k (hk : k < bytes.length), userByte t memory (address + k) = some bytes[k]

theorem Holds.nil (t : PageTable) (memory : PhysicalMemory) (address : ℕ) :
    Holds t memory address [] :=
  fun k hk => absurd hk (Nat.not_lt_zero k)

theorem Holds.append {xs ys : List UInt8} (hx : Holds t memory va xs)
    (hy : Holds t memory (va + xs.length) ys) : Holds t memory va (xs ++ ys) := by
  intro k hk
  by_cases hlt : k < xs.length
  · rw [List.getElem_append_left hlt]
    exact hx k hlt
  · rw [List.length_append] at hk
    have hrest := hy (k - xs.length) (by omega)
    rw [List.getElem_append_right (Nat.not_lt.mp hlt), ← hrest, add_assoc,
      Nat.add_sub_of_le (Nat.not_lt.mp hlt)]

/-- A copy behind what has been copied, whether or not it succeeds. -/
theorem Holds.copyOut_behind (h : DistinctFrames t) {xs : List UInt8} (hx : Holds t memory va xs)
    (source : List UInt8) :
    Holds t (Memory.copyOut t memory (va + xs.length) source).2.1 va xs := by
  intro k hk
  rw [copyOut_outside h _ _ (.inl (by omega))]
  exact hx k hk

theorem Holds.copyOut (h : DistinctFrames t) {xs : List UInt8} (hx : Holds t memory va xs)
    (source : List UInt8)
    (hok : (Memory.copyOut t memory (va + xs.length) source).1 = .ok ()) :
    Holds t (Memory.copyOut t memory (va + xs.length) source).2.1 va (xs ++ source) :=
  Holds.append (hx.copyOut_behind h source) (copyOut_inside h _ source hok)

/-- `copyOut_inside` for what is not longer than a page, whatever the frames. -/
theorem copyOut_short (destination : ℕ) (source : List UInt8) (hlen : source.length ≤ pageSize)
    (hok : (copyOut t memory destination source).1 = .ok ()) : ∀ k (hk : k < source.length),
    byteAddress t (destination + k) = some a →
      (copyOut t memory destination source).2.1 a = source[k] := by
  fun_induction copyOut t memory destination source with
  | case1 => exact fun k hk => absurd hk (Nat.not_lt_zero k)
  | case2 => cases hok
  | case3 memory destination source hne page hp physicalDestination count rest ih =>
    intro k hk ha
    have hcount : count ≤ source.length := byteCount_le _ _
    by_cases hturn : k < count
    · have hoffset := byteCount_offset destination source.length
      have haddr : byteAddress t (destination + k) = some (physicalDestination + k) :=
        byteAddress_add (byteAddress_of_ok hp) (by omega)
      rw [copyOut_unchanged]
      · rw [← Option.some.inj (haddr.symm.trans ha),
          store_apply _ _ (by rw [List.length_take]; omega), List.getElem_take]
      · intro j hj
        rw [List.length_drop] at hj
        exact byteAddress_ne (by omega) (by omega) ha
    · have hadd : destination + count + (k - count) = destination + k := by omega
      have hrest := ih (by rw [List.length_drop]; omega) hok (k - count)
        (by rw [List.length_drop]; omega) (by rw [hadd]; exact ha)
      simp only [List.getElem_drop, Nat.add_sub_of_le (Nat.not_lt.mp hturn)] at hrest
      exact hrest

theorem length_copyIn (t : PageTable) (memory : PhysicalMemory) (destination : List UInt8)
    (source : ℕ) : (copyIn t memory destination source).2.1.length = destination.length := by
  fun_induction copyIn t memory destination source with
  | case1 => rfl
  | case2 => rfl
  | case3 destination source hne page hp physicalSource count rest ih =>
    have hcount : count ≤ destination.length := byteCount_le _ _
    rw [List.length_append, PhysicalMemory.length_load, ih, List.length_drop]
    omega

/-- Where `copyIn` succeeds, it returns the bytes of its range. -/
theorem copyIn_bytes (destination : List UInt8) (source : ℕ)
    (hok : (copyIn t memory destination source).1 = .ok ()) : ∀ k < destination.length,
    (copyIn t memory destination source).2.1[k]? = userByte t memory (source + k) := by
  fun_induction copyIn t memory destination source with
  | case1 => exact fun k hk => absurd hk (Nat.not_lt_zero k)
  | case2 => cases hok
  | case3 destination source hne page hp physicalSource count rest ih =>
    intro k hk
    by_cases hturn : k < count
    · have hoffset := byteCount_offset source destination.length
      have haddr : byteAddress t (source + k) = some (physicalSource + k) :=
        byteAddress_add (byteAddress_of_ok hp) (by omega)
      rw [List.getElem?_append_left (by rwa [PhysicalMemory.length_load]), userByte, haddr]
      simp [PhysicalMemory.load, hturn]
    · have hrest := ih hok (k - count) (by rw [List.length_drop]; omega)
      rw [List.getElem?_append_right (by rw [PhysicalMemory.length_load]; omega),
        PhysicalMemory.length_load, hrest]
      congr 1
      omega

/-! ## Strings -/

/-- The first NUL from an address on is `k` bytes away, and the bytes up to it are mapped. -/
def Terminated (t : PageTable) (memory : PhysicalMemory) (address k : ℕ) : Prop :=
  userByte t memory (address + k) = some 0 ∧
    ∀ j < k, ∃ c, userByte t memory (address + j) = some c ∧ c ≠ 0

theorem Terminated.unique {k l : ℕ} (hk : Terminated t memory va k) (hl : Terminated t memory va l) :
    k = l := by
  obtain hlt | heq | hlt := Nat.lt_trichotomy k l
  · obtain ⟨c, hc, hne⟩ := hl.2 k hlt
    rw [hk.1] at hc
    exact absurd (Option.some.inj hc).symm hne
  · exact heq
  · obtain ⟨c, hc, hne⟩ := hk.2 l hlt
    rw [hl.1] at hc
    exact absurd (Option.some.inj hc).symm hne

theorem userByte_turn {address page n k : ℕ}
    (h : translateAddress t (pageAlignDown address) = .ok page) (hk : k < byteCount address n) :
    userByte t memory (address + k) = some (memory (page + pageOffset address + k)) := by
  have hoffset := byteCount_offset address n
  rw [userByte, byteAddress_add (byteAddress_of_ok h) (by omega)]
  rfl

theorem isTerminator_iff {b : ℕ} : isTerminator memory b = true ↔ memory b = 0 := by
  simp [isTerminator]

/-- `copyInString` finds the first NUL, if it gets to it. -/
theorem copyInString_ok_iff (destination : List UInt8) (source length : ℕ) {r : ℕ} :
    (copyInString t memory destination source length).1 = .ok r ↔
      ∃ k < destination.length, r = length + k ∧ Terminated t memory source k := by
  fun_induction copyInString t memory destination source length with
  | case1 => simp
  | case2 destination source length hne e he =>
    refine iff_of_false (by simp) ?_
    rintro ⟨k, -, -, hzero, hbefore⟩
    have hnone : userByte t memory source = none := by rw [userByte, byteAddress_of_error he]; rfl
    obtain rfl | hpos := Nat.eq_zero_or_pos k
    · rw [add_zero, hnone] at hzero
      cases hzero
    · obtain ⟨c, hc, -⟩ := hbefore 0 hpos
      rw [add_zero, hnone] at hc
      cases hc
  | case3 destination source length hne page hp count physicalSource bytes i hi =>
    obtain ⟨hlt, hzero, hbefore⟩ := findIdx?_load_eq_some hi
    have hle := byteCount_le source destination.length
    have hterm : Terminated t memory source i := by
      refine ⟨?_, fun j hj => ⟨_, userByte_turn hp (hj.trans hlt), ?_⟩⟩
      · rw [userByte_turn hp hlt, isTerminator_iff.mp hzero]
      · intro hz
        have hno := hbefore j hj
        rw [isTerminator_iff.mpr hz] at hno
        cases hno
    constructor
    · intro hr
      cases hr
      exact ⟨i, by omega, rfl, hterm⟩
    · rintro ⟨k, -, rfl, hk⟩
      rw [hterm.unique hk]
  | case4 destination source length hne page hp count physicalSource bytes hnone rest ih =>
    have hcount : count ≤ destination.length := byteCount_le _ _
    have hbytes : ∀ j < count, ∃ c, userByte t memory (source + j) = some c ∧ c ≠ 0 := by
      intro j hj
      refine ⟨_, userByte_turn hp hj, fun hz => ?_⟩
      have hno := findIdx?_load_eq_none hnone j hj
      rw [isTerminator_iff.mpr hz] at hno
      cases hno
    refine ih.trans ?_
    constructor
    · rintro ⟨k, hk, rfl, hzero, hbefore⟩
      rw [List.length_drop] at hk
      refine ⟨count + k, by omega, by omega, by rw [← add_assoc]; exact hzero, fun j hj => ?_⟩
      by_cases hturn : j < count
      · exact hbytes j hturn
      · obtain ⟨c, hc, hne⟩ := hbefore (j - count) (by omega)
        refine ⟨c, ?_, hne⟩
        rwa [add_assoc, Nat.add_sub_of_le (by omega)] at hc
    · rintro ⟨k, hk, rfl, hzero, hbefore⟩
      have hge : count ≤ k := by
        by_contra hlt
        obtain ⟨c, hc, hne⟩ := hbytes k (by omega)
        rw [hzero] at hc
        exact hne (Option.some.inj hc).symm
      refine ⟨k - count, by rw [List.length_drop]; omega, by omega, ?_, fun j hj => ?_⟩
      · rw [add_assoc, Nat.add_sub_of_le hge]
        exact hzero
      · rw [add_assoc]
        exact hbefore (count + j) (by omega)

/-- The bytes before the NUL are in the destination. -/
theorem copyInString_bytes (destination : List UInt8) (source length : ℕ) : ∀ k,
    (copyInString t memory destination source length).1 = .ok (length + k) → ∀ j ≤ k,
      (copyInString t memory destination source length).2.1[j]? =
        userByte t memory (source + j) := by
  fun_induction copyInString t memory destination source length with
  | case1 => simp
  | case2 => simp
  | case3 destination source length hne page hp count physicalSource bytes i hi =>
    intro k hok j hj
    obtain ⟨hlt, -, -⟩ := findIdx?_load_eq_some hi
    have hik : i = k := by
      have heq : length + i = length + k := by simpa using hok
      omega
    subst hik
    have hlen : j < (bytes.take (i + 1)).length := by
      rw [List.length_take, PhysicalMemory.length_load]
      omega
    rw [List.getElem?_append_left hlen, List.getElem?_take_of_lt (by omega),
      userByte_turn hp (show j < byteCount source destination.length by omega)]
    have hjlt : j < count := by omega
    simp [bytes, PhysicalMemory.load, hjlt, physicalSource]
  | case4 destination source length hne page hp count physicalSource bytes hnone rest ih =>
    intro k hok j hj
    by_cases hturn : j < count
    · rw [List.getElem?_append_left (by rwa [PhysicalMemory.length_load]), userByte_turn hp hturn]
      simp [bytes, PhysicalMemory.load, hturn, physicalSource]
    · obtain ⟨m, -, hm, -⟩ := (copyInString_ok_iff (destination.drop count) (source + count)
        (length + count)).mp hok
      obtain rfl : k = count + m := by omega
      have hrest := ih m (by rw [add_assoc]; exact hok) (j - count) (by omega)
      rw [List.getElem?_append_right (by rw [PhysicalMemory.length_load]; omega),
        PhysicalMemory.length_load, hrest]
      congr 1
      omega

/-! ## All of it -/

/-- What a copy adds to an address that it has translated stays in range. -/
theorem add_in_range {address page : ℕ} (n : ℕ)
    (h : translateAddress t (pageAlignDown address) = .ok page) :
    address + byteCount address n < 2 ^ 64 := by
  obtain ⟨hlt, -⟩ := byteAddress_eq_some.mp (byteAddress_of_ok h)
  have hoffset := byteCount_offset address n
  simp only [maxVirtualAddress, maxVirtualPage, pageSize] at *
  omega

/-- For every address and every length: what is copied out is what is copied in, nothing
else of user memory changes, the copies succeed exactly on ranges that are mapped,
strings end at their first NUL, and no sum of addresses overflows. -/
theorem user_copies_exact (h : DistinctFrames t) (memory : PhysicalMemory) (va : ℕ)
    (data : List UInt8) :
    ((copyOut t memory va data).1 = .ok () → ∀ destination : List UInt8,
      destination.length = data.length →
        (copyIn t (copyOut t memory va data).2.1 destination va).1 = .ok () ∧
        (copyIn t (copyOut t memory va data).2.1 destination va).2.1 = data) ∧
    (∀ address, address < va ∨ va + data.length ≤ address →
      userByte t (copyOut t memory va data).2.1 address = userByte t memory address) ∧
    (∀ a, (copyOut t memory va data).2.1 a ≠ memory a →
      ∃ k < data.length, byteAddress t (va + k) = some a) ∧
    ((copyOut t memory va data).1 = .ok () ↔ ∀ k < data.length, UserMapped t (va + k)) ∧
    ((copyIn t memory data va).1 = .ok () ↔ ∀ k < data.length, UserMapped t (va + k)) ∧
    (∀ k, (copyInString t memory data va 0).1 = .ok k ↔
      k < data.length ∧ userByte t memory (va + k) = some 0 ∧
        ∀ j < k, ∃ c, userByte t memory (va + j) = some c ∧ c ≠ 0) ∧
    (∀ k, (copyInString t memory data va 0).1 = .ok k → ∀ j < k,
      (copyInString t memory data va 0).2.1[j]? = userByte t memory (va + j)) ∧
    ∀ address page n, translateAddress t (pageAlignDown address) = .ok page →
      address + byteCount address n < 2 ^ 64 := by
  refine ⟨fun hok destination hlen => ?_, fun address ha => copyOut_outside h va data ha,
    fun a ha => ?_, ?_, ?_, fun k => ?_, fun k hok j hj => ?_, fun _ _ n hp => add_in_range n hp⟩
  · have hin : (copyIn t (copyOut t memory va data).2.1 destination va).1 = .ok () := by
      rw [copyIn_ok_iff, hlen]
      exact (copyOut_ok_iff t memory va data).mp hok
    refine ⟨hin, List.ext_getElem? fun k => ?_⟩
    by_cases hk : k < data.length
    · rw [copyIn_bytes destination va hin k (by omega), copyOut_inside h va data hok k hk,
        List.getElem?_eq_getElem hk]
    · rw [List.getElem?_eq_none (by rw [length_copyIn]; omega), List.getElem?_eq_none (by omega)]
  · by_contra hnone
    push Not at hnone
    exact ha (copyOut_unchanged va data hnone)
  · simp only [copyOut_ok_iff, isSome_byteAddress_iff]
  · simp only [copyIn_ok_iff, isSome_byteAddress_iff]
  · rw [copyInString_ok_iff]
    constructor
    · rintro ⟨m, hm, rfl, hterm⟩
      rw [zero_add]
      exact ⟨hm, hterm⟩
    · rintro ⟨hk, hterm⟩
      exact ⟨k, hk, (zero_add k).symm, hterm⟩
  · exact copyInString_bytes data va 0 k (by rw [zero_add]; exact hok) j hj.le

/-- The one page of `textTable` is at address zero. -/
theorem textTable_leaf {v : ℕ} (hv : v < maxVirtualPage) {p : PageTableEntry}
    (h : textTable.leaf v = some p) : v = 0 := by
  have hroot : pageIndex v .root = 0 := by
    by_contra hne
    simp [PageTable.leaf, PageTable.lookup, textTable, hne] at h
  have hbranch : pageIndex v .branch = 0 := by
    by_contra hne
    simp [PageTable.leaf, PageTable.lookup, textTable, hroot, hne] at h
  have hleaf : pageIndex v .leaf = 0 := by
    by_contra hne
    simp [PageTable.leaf, PageTable.lookup, textTable, hroot, hbranch, hne] at h
  refine pageIndex_inj hv (by decide) fun l => ?_
  cases l with
  | leaf => exact hleaf
  | branch => exact hbranch
  | root => exact hroot

theorem textTable_distinct : DistinctFrames textTable := fun _ hv _ hw _ _ hp hq _ _ _ =>
  (textTable_leaf hv hp).trans (textTable_leaf hw hq).symm

theorem user_copies_exact_text :
    (copyIn textTable (copyOut textTable (fun _ => 0) 0 [65]).2.1 [0] 0).2.1 = [65] := by
  have hok : (copyOut textTable (fun _ => 0) 0 [65]).1 = .ok () := by rw [copyOut_textTable]
  exact ((user_copies_exact textTable_distinct (fun _ => 0) 0 [65]).1 hok [0] rfl).2

end Zigmaos.Memory
