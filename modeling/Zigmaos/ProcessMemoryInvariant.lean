import Zigmaos.ProcessMemory

/-!
# No page is lost or handed out twice

Every call changes one process and the free list, and the pages of the two
together stay the same. The tables map the pages of their sizes exactly, so that
no call panics.
-/
namespace Zigmaos.ProcessMemory
open Memory
open Memory.PageTable (userPages Extended)

/-- The table maps the pages of the size, the trampoline and the trapframe. -/
def TableOk (t : Option PageTable) (size : ℕ) : Prop :=
  ∀ u, t = some u → u.Mapped (userPages size) ∧ pageCount size ≤ trapframePage

structure Exec.Ok (e : Exec) : Prop where
  table : TableOk e.pageTable e.programSize
  ready : e.ready = true → e.pageTable.isSome

/-- What holds of a process between calls. -/
structure Process.Ok (p : Process) : Prop where
  unused : p.state = .unused → p = .unused
  table : TableOk p.pageTable p.size
  pageTable : p.state ≠ .unused → p.pageTable.isSome
  trapFrame : p.state ≠ .unused → p.trapFrame.isSome
  zombie : p.state = .zombie → p.exec = none
  exec : ∀ e, p.exec = some e → e.Ok

/-- The table maps those pages and the pages `W` beside them. -/
def TableOkBeside (W : ℕ → Prop) (t : Option PageTable) (size : ℕ) : Prop :=
  ∀ u, t = some u → u.Mapped (fun w => userPages size w ∨ W w) ∧
    pageCount size ≤ trapframePage ∧ ∀ w, W w → ¬ userPages size w

structure Process.OkBeside (W : ℕ → Prop) (p : Process) : Prop where
  unused : p.state = .unused → p = .unused ∧ ∀ w, ¬ W w
  table : TableOkBeside W p.pageTable p.size
  pageTable : p.state ≠ .unused → p.pageTable.isSome
  trapFrame : p.state ≠ .unused → p.trapFrame.isSome
  zombie : p.state = .zombie → p.exec = none
  exec : ∀ e, p.exec = some e → e.Ok

/-- Nothing is mapped beside the user pages. -/
theorem tableOkBeside_iff {W : ℕ → Prop} (hW : ∀ w, ¬ W w) {t : Option PageTable} {size : ℕ} :
    TableOkBeside W t size ↔ TableOk t size := by
  have hset : (fun w => userPages size w ∨ W w) = userPages size := by
    funext w
    simp [hW w]
  unfold TableOkBeside TableOk
  rw [hset]
  constructor
  · intro h u hu
    exact ⟨(h u hu).1, (h u hu).2.1⟩
  · intro h u hu
    exact ⟨(h u hu).1, (h u hu).2, fun w hw => absurd hw (hW w)⟩

theorem Process.okBeside_iff {W : ℕ → Prop} (hW : ∀ w, ¬ W w) {p : Process} :
    p.OkBeside W ↔ p.Ok :=
  ⟨fun h => ⟨fun hs => (h.unused hs).1, (tableOkBeside_iff hW).mp h.table, h.pageTable, h.trapFrame,
      h.zombie, h.exec⟩,
    fun h => ⟨fun hs => ⟨h.unused hs, hW⟩, (tableOkBeside_iff hW).mpr h.table, h.pageTable,
      h.trapFrame, h.zombie, h.exec⟩⟩

@[simp] theorem liftPanic_ok {α : Type} (x : α) : liftPanic (.ok x) = .ok x := rfl

@[simp] theorem ok_bind {α β : Type} (x : α) (f : α → Except Panic β) : (.ok x >>= f) = f x := rfl

theorem TableOk.none (size : ℕ) : TableOk none size := nofun

theorem Process.Ok.of_unused : Process.unused.Ok where
  unused _ := rfl
  table := TableOk.none 0
  pageTable h := absurd rfl h
  trapFrame h := absurd rfl h
  zombie := nofun
  exec := nofun

namespace Process

@[simp] theorem tablePages_none (size : ℕ) : tablePages none size = 0 := rfl

@[simp] theorem tablePages_some (t : PageTable) (size : ℕ) :
    tablePages (some t) size = t.pages + t.pagesFrom 0 (pageCount size) := rfl

@[simp] theorem execPages_none : execPages none = 0 := rfl

@[simp] theorem execPages_some (e : Exec) :
    execPages (some e) = (e.buffers : Multiset Page) + tablePages e.pageTable e.programSize := rfl

@[simp] theorem pages_unused : Process.unused.pages = 0 := by simp [pages, Process.unused]

/-! ## Tables that grow -/

theorem userPages_trapframe (size : ℕ) : userPages size trapframePage := .inr (.inr rfl)

/-- A table that has grown from one size to another. -/
theorem extended_beside {W : ℕ → Prop} {t t' : PageTable} {a a' : Allocator} (oldSize newSize : ℕ)
    (h : Extended t a (fun w => userPages oldSize w ∨ W w) (pageCount oldSize) (pageCount newSize)
      t' a')
    (hold : pageCount oldSize ≤ trapframePage) (hW : ∀ w, W w → ¬ userPages oldSize w) :
    TableOkBeside W (some t') newSize ∧
      tablePages (some t') newSize + a'.pages = tablePages (some t) oldSize + a.pages := by
  have hle := h.le
  have htrap := h.le_trapframe (.inl (userPages_trapframe oldSize)) hold
  have hlt := PageTable.trapframePage_lt
  refine ⟨fun u hu => ?_, ?_⟩
  · obtain rfl := Option.some.inj hu
    refine ⟨h.mapped.congr (fun w _ => ?_), htrap, fun w hw huser => ?_⟩
    · have huser : userPages newSize w ↔
          userPages oldSize w ∨ (pageCount oldSize ≤ w ∧ w < pageCount newSize) := by
        unfold userPages
        omega
      rw [huser, or_right_comm]
    · have hbefore := hW w hw
      have hfresh : ¬ (pageCount oldSize ≤ w ∧ w < pageCount newSize) :=
        fun hin => h.fresh w hin.1 hin.2 (.inr hw)
      unfold userPages at *
      omega
  · have hsplit : t'.pagesFrom 0 (pageCount newSize) = t'.pagesFrom 0 (pageCount oldSize) +
        t'.pagesFrom (pageCount oldSize) (pageCount newSize - pageCount oldSize) := by
      have := PageTable.pagesFrom_add t' 0 (pageCount oldSize)
        (pageCount newSize - pageCount oldSize)
      rwa [Nat.add_sub_of_le hle, zero_add] at this
    have hsame : t'.pagesFrom 0 (pageCount oldSize) = t.pagesFrom 0 (pageCount oldSize) := by
      refine PageTable.pagesFrom_congr (fun w _ hw => ?_)
      rw [PageTable.pagesAt, h.leaf_eq w (by omega) (by omega), PageTable.pagesAt]
    have hpages := h.pages_eq
    rw [tablePages_some, tablePages_some, hsplit, hsame]
    ext x
    have := congrArg (Multiset.count x) hpages
    simp only [Multiset.count_add] at *
    omega

theorem extended_user {t t' : PageTable} {a a' : Allocator} (oldSize newSize : ℕ)
    (h : Extended t a (userPages oldSize) (pageCount oldSize) (pageCount newSize) t' a')
    (hold : pageCount oldSize ≤ trapframePage) :
    TableOk (some t') newSize ∧
      tablePages (some t') newSize + a'.pages = tablePages (some t) oldSize + a.pages := by
  obtain ⟨htable, hpages⟩ := extended_beside (W := fun _ => False) oldSize newSize
    (by simpa only [or_false] using h) hold (fun _ => False.elim)
  exact ⟨(tableOkBeside_iff (fun _ => id)).mp htable, hpages⟩

/-! ## The calls -/

/-- The call returns, and process and free list together keep their pages. -/
def Conserves (p : Process) (a : Allocator) (r : Result) : Prop :=
  ∃ p' a', r = .ok (p', a') ∧ p'.Ok ∧ p'.pages + a'.pages = p.pages + a.pages

/-- The same of a process with pages mapped beside the user pages. -/
def ConservesBeside (W : ℕ → Prop) (p : Process) (a : Allocator) (r : Result) : Prop :=
  ∃ p' a', r = .ok (p', a') ∧ p'.OkBeside W ∧ p'.pages + a'.pages = p.pages + a.pages

theorem Conserves.beside {W : ℕ → Prop} (hW : ∀ w, ¬ W w) {p : Process} {a : Allocator} {r : Result}
    (h : Conserves p a r) : ConservesBeside W p a r := by
  obtain ⟨p', a', heq, hok, hpages⟩ := h
  exact ⟨p', a', heq, (okBeside_iff hW).mpr hok, hpages⟩

theorem freePage_elim (o : Option Page) (a : Allocator) :
    (o.elim a a.freePage).pages = o.elim 0 (fun page => {page}) + a.pages := by
  cases o <;> simp

theorem free_spec {p : Process} (h : TableOk p.pageTable p.size) (he : p.exec = none)
    (a : Allocator) : ∃ a', p.free a = .ok (.unused, a') ∧ a'.pages = p.pages + a.pages := by
  unfold free
  cases ht : p.pageTable with
  | none =>
    refine ⟨_, rfl, ?_⟩
    simp [pages, ht, he, freePage_elim]
  | some t =>
    obtain ⟨hmapped, hle⟩ := h t ht
    obtain ⟨a', heq, hpages⟩ := PageTable.freePageTable_spec hmapped hle (p.trapFrame.elim a a.freePage)
    refine ⟨a', by simp only [heq, liftPanic_ok, ok_bind]; rfl, ?_⟩
    rw [hpages, freePage_elim, pages, ht, he, tablePages_some, execPages_none]
    ext x
    simp only [Multiset.count_add, Multiset.count_zero]
    omega

/-- A process that `init` has made. -/
def fresh (page : Page) (t : PageTable) : Process := ⟨.runnable, some page, some t, 0, none⟩

theorem init_spec (trampoline : Page) (a : Allocator) :
    ∃ done p' a', Process.unused.init trampoline a = .ok (done, p', a') ∧
      p'.pages + a'.pages = a.pages ∧ (done = false → p' = .unused) ∧
      (done = true → ∃ page t, p' = fresh page t ∧ t.Mapped (userPages 0)) := by
  unfold init
  obtain ⟨hnone, hpages⟩ | ⟨page, hsome, hpages⟩ := a.allocPage_cases
  · rw [show a.allocPage = (none, a.allocPage.2) from Prod.ext hnone rfl]
    exact ⟨false, .unused, a.allocPage.2, rfl, by rw [pages_unused, zero_add, hpages],
      fun _ => rfl, nofun⟩
  · rw [show a.allocPage = (some page, a.allocPage.2) from Prod.ext hsome rfl]
    obtain ⟨r, a', heq, hnone, hsome⟩ := createPagetable_spec trampoline page a.allocPage.2
    simp only [heq, liftPanic_ok, ok_bind]
    cases r with
    | none =>
      obtain ⟨a'', hfree, hpages'⟩ := free_spec (p := ⟨.runnable, some page, none, 0, none⟩)
        (TableOk.none 0) rfl a'
      refine ⟨false, .unused, a'', ?_, ?_, fun _ => rfl, nofun⟩
      · simp only [unused, hfree, ok_bind]
        rfl
      · rw [pages_unused, zero_add, hpages', hnone rfl, ← hpages]
        simp [pages, add_comm]
    | some t =>
      obtain ⟨hmapped, hpages'⟩ := hsome t rfl
      refine ⟨true, fresh page t, a', rfl, ?_, nofun, fun _ => ⟨page, t, rfl, hmapped⟩⟩
      rw [← hpages, ← hpages']
      simp only [pages, fresh, Option.elim_some, tablePages_some, execPages_none,
        show pageCount 0 = 0 from rfl, PageTable.pagesFrom]
      ext x
      simp only [Multiset.count_add, Multiset.count_zero]
      omega

theorem fresh_ok {page : Page} {t : PageTable} {size : ℕ} (h : TableOk (some t) size) :
    Process.Ok ⟨.runnable, some page, some t, size, none⟩ where
  unused := nofun
  table := h
  pageTable _ := rfl
  trapFrame _ := rfl
  zombie := nofun
  exec := nofun

theorem fork_conserves {W : ℕ → Prop} {parent : Process} (hparent : parent.OkBeside W) (hstate : parent.state ≠ .unused)
    (trampoline : Page) (a : Allocator) :
    Conserves .unused a (parent.fork .unused trampoline a) := by
  obtain ⟨done, p', a', heq, hpages, hfail, hdone⟩ := init_spec trampoline a
  unfold fork
  rw [heq]
  cases done with
  | false =>
    obtain rfl := hfail rfl
    exact ⟨.unused, a', rfl, .of_unused, by rw [hpages, pages_unused, zero_add]⟩
  | true =>
    obtain ⟨page, t, rfl, hmapped⟩ := hdone rfl
    obtain ⟨parentTable, hpt⟩ := Option.isSome_iff_exists.mp (hparent.pageTable hstate)
    obtain ⟨hpmapped, hple, -⟩ := hparent.table parentTable hpt
    have hmax := PageTable.trapframePage_lt
    have hparentPages : ∀ w < pageCount parent.size, ∃ pte,
        parentTable.lookup w = some (some pte) ∧ pte.isBranch = false := by
      intro w hw
      obtain ⟨pte, -, hlookup, hbranch⟩ := hpmapped.lookup (by omega) (.inl (.inl hw))
      exact ⟨pte, hlookup, hbranch⟩
    obtain ⟨done, t', a'', hcopy, hext⟩ :=
      PageTable.copyPageTable_spec hparentPages hmapped (userPages_trapframe 0) a'
    have hbase : ∀ t size a, Process.pages ⟨.runnable, some page, some t, size, none⟩ +
        Allocator.pages a = {page} + (tablePages (some t) size + a.pages) := by
      intro t size a
      simp only [pages, Option.elim_some, execPages_none, add_zero, add_assoc]
    simp only [fresh, hpt, ok_bind, hcopy, liftPanic_ok]
    rw [fresh, hbase] at hpages
    cases done with
    | true =>
      obtain ⟨hok, hsame⟩ := extended_user 0 parent.size hext (Nat.zero_le _)
      refine ⟨⟨.runnable, some page, some t', parent.size, none⟩, a'', rfl, fresh_ok hok, ?_⟩
      rw [hbase, hsame, hpages, pages_unused, zero_add]
    | false =>
      obtain ⟨hok, hsame⟩ := extended_user 0 0 hext (Nat.zero_le _)
      obtain ⟨a₃, hfree, hpages₃⟩ :=
        free_spec (p := ⟨.runnable, some page, some t', 0, none⟩) hok rfl a''
      refine ⟨.unused, a₃, hfree, .of_unused, ?_⟩
      rw [hpages₃, hbase, hsame, hpages]

theorem alloc_beside {W : ℕ → Prop} {t : PageTable} {oldSize : ℕ} (newSize : ℕ)
    (permissions : PagePermissions) (h : TableOkBeside W (some t) oldSize) (a : Allocator)
    (hp : permissions ≠ .none) :
    ∃ r t' a', t.alloc a oldSize newSize permissions = .ok (r, t', a') ∧
      TableOkBeside W (some t') (r.getD oldSize) ∧
      tablePages (some t') (r.getD oldSize) + a'.pages = tablePages (some t) oldSize + a.pages := by
  obtain ⟨hmapped, hle, hW⟩ := h t rfl
  obtain ⟨r, t', a', heq, hext⟩ :=
    PageTable.alloc_spec newSize hmapped a hp (.inl (userPages_trapframe oldSize)) hle
  obtain ⟨hok, hpages⟩ := extended_beside oldSize (r.getD oldSize) hext hle hW
  exact ⟨r, t', a', heq, hok, hpages⟩

theorem alloc_user {t : PageTable} {oldSize : ℕ} (newSize : ℕ) (permissions : PagePermissions)
    (h : TableOk (some t) oldSize) (a : Allocator) (hp : permissions ≠ .none) :
    ∃ r t' a', t.alloc a oldSize newSize permissions = .ok (r, t', a') ∧
      TableOk (some t') (r.getD oldSize) ∧
      tablePages (some t') (r.getD oldSize) + a'.pages = tablePages (some t) oldSize + a.pages := by
  have hnone : ∀ w, ¬ (fun _ : ℕ => False) w := fun _ => id
  obtain ⟨r, t', a', heq, hok, hpages⟩ :=
    alloc_beside newSize permissions ((tableOkBeside_iff hnone).mpr h) a hp
  exact ⟨r, t', a', heq, (tableOkBeside_iff hnone).mp hok, hpages⟩

/-- `dealloc` of a table at its size. -/
theorem dealloc_beside {W : ℕ → Prop} {t : PageTable} {oldSize : ℕ}
    (h : TableOkBeside W (some t) oldSize) (a : Allocator) (newSize : ℕ) :
    ∃ size t' a', t.dealloc a oldSize newSize = .ok (size, t', a') ∧
      TableOkBeside W (some t') size ∧
      tablePages (some t') size + a'.pages = tablePages (some t) oldSize + a.pages := by
  obtain ⟨hmapped, hle, hW⟩ := h t rfl
  have hmax := PageTable.trapframePage_lt
  unfold PageTable.dealloc
  split
  · exact ⟨oldSize, t, a, rfl, h, rfl⟩
  next hlt =>
    have hcount := PageTable.pageCount_mono (show newSize ≤ oldSize by omega)
    split
    next hpages =>
      obtain ⟨t', a', heq, hmapped', htable, hfree, hleaf⟩ :=
        PageTable.unmap_spec true hmapped (a := a) (v := pageCount newSize)
          (n := pageCount oldSize - pageCount newSize) (fun w _ hw => .inl (.inl (by omega)))
          (by omega)
      rw [heq]
      refine ⟨newSize, t', a', rfl, fun u hu => ?_, ?_⟩
      · obtain rfl := Option.some.inj hu
        have htramp : trampolinePage = trapframePage + 1 := by decide
        refine ⟨hmapped'.congr (fun w _ => ?_), by omega, fun w hw huser => ?_⟩
        · by_cases hw : W w
          · have hbefore := hW w hw
            unfold userPages at *
            simp only [hw, or_true, true_and, true_iff]
            omega
          · simp only [hw, or_false]
            unfold userPages
            omega
        · have hbefore := hW w hw
          unfold userPages at *
          omega
      · have hsplit : t.pagesFrom 0 (pageCount oldSize) = t.pagesFrom 0 (pageCount newSize) +
            t.pagesFrom (pageCount newSize) (pageCount oldSize - pageCount newSize) := by
          have := PageTable.pagesFrom_add t 0 (pageCount newSize)
            (pageCount oldSize - pageCount newSize)
          rwa [Nat.add_sub_of_le hcount, zero_add] at this
        have hsame : t'.pagesFrom 0 (pageCount newSize) = t.pagesFrom 0 (pageCount newSize) := by
          refine PageTable.pagesFrom_congr (fun w _ hw => ?_)
          rw [PageTable.pagesAt, hleaf w (by omega) (by omega), PageTable.pagesAt]
        rw [tablePages_some, tablePages_some, hsplit, hsame, htable, hfree, if_pos rfl]
        ext x
        simp only [Multiset.count_add]
        omega
    next hpages =>
      have hsame : pageCount newSize = pageCount oldSize := by omega
      refine ⟨newSize, t, a, rfl, fun u hu => ?_, by rw [tablePages_some, hsame, tablePages_some]⟩
      obtain rfl := Option.some.inj hu
      unfold userPages at *
      rw [hsame]
      exact ⟨hmapped, hle, hW⟩

/-- A call that changes the table and the size. -/
theorem conserves_table {W : ℕ → Prop} {p : Process} (h : p.OkBeside W) (hs : p.state = .runnable) {t : PageTable}
    {size : ℕ} {a a' : Allocator} (ht : TableOkBeside W (some t) size)
    (hpages : tablePages (some t) size + a'.pages = tablePages p.pageTable p.size + a.pages) :
    ConservesBeside W p a (.ok ({ p with pageTable := some t, size := size }, a')) := by
  refine ⟨_, a', rfl, ⟨fun hu => ?_, ht, fun _ => rfl, h.trapFrame, h.zombie, h.exec⟩, ?_⟩
  · simp [hs] at hu
  · simp only [pages]
    ext x
    have := congrArg (Multiset.count x) hpages
    simp only [Multiset.count_add] at *
    omega

theorem changeProcessSize_conserves {W : ℕ → Prop} {p : Process} (h : p.OkBeside W)
    (hs : p.state = .runnable) (sizeDiff : ℤ) (a : Allocator) :
    ConservesBeside W p a (p.changeProcessSize sizeDiff a) := by
  obtain ⟨t, ht⟩ := Option.isSome_iff_exists.mp (h.pageTable (by simp [hs]))
  have hok := h.table
  rw [ht] at hok
  have hsame : ConservesBeside W p a (.ok (p, a)) := ⟨p, a, rfl, h, rfl⟩
  unfold changeProcessSize
  simp only [ht]
  split
  · split
    · exact hsame
    · obtain ⟨r, t', a', heq, hok', hpages⟩ := alloc_beside
        (p.size + sizeDiff.natAbs) .data hok a (by decide)
      simp only [heq, liftPanic_ok, ok_bind]
      exact conserves_table h hs hok' (by rw [hpages, ht])
  · split
    · obtain ⟨size, t', a', heq, hok', hpages⟩ :=
        dealloc_beside hok a (sub64 p.size sizeDiff.natAbs)
      simp only [heq, liftPanic_ok, ok_bind]
      exact conserves_table h hs hok' (by rw [hpages, ht])
    · exact hsame

/-- A call that changes what `exec` holds. -/
theorem conserves_exec {W : ℕ → Prop} {p : Process} (h : p.OkBeside W) (hs : p.state = .runnable)
    {x : Option Exec}
    {a a' : Allocator} (hx : ∀ e, x = some e → e.Ok)
    (hpages : execPages x + a'.pages = execPages p.exec + a.pages) :
    ConservesBeside W p a (.ok ({ p with exec := x }, a')) := by
  refine ⟨_, a', rfl, ⟨fun hu => ?_, h.table, h.pageTable, h.trapFrame, fun hz => ?_, hx⟩, ?_⟩
  · simp [hs] at hu
  · simp [hs] at hz
  · simp only [pages]
    rw [add_assoc, hpages, ← add_assoc]

theorem failExec_conserves {W : ℕ → Prop} {p : Process} (h : p.OkBeside W)
    (hs : p.state = .runnable) {e : Exec} {a a' : Allocator} (he : TableOk e.pageTable e.programSize)
    (hpages : execPages (some e) + a'.pages = execPages p.exec + a.pages) :
    ConservesBeside W p a (p.failExec e a') := by
  unfold failExec
  cases ht : e.pageTable with
  | none =>
    refine conserves_exec h hs nofun ?_
    rw [← hpages, execPages_none, execPages_some, ht, Allocator.freePages_pages]
    simp
  | some t =>
    obtain ⟨hmapped, hle⟩ := he t ht
    obtain ⟨a'', heq, hfree⟩ := PageTable.freePageTable_spec hmapped hle a'
    simp only [heq, liftPanic_ok, ok_bind]
    refine conserves_exec h hs nofun ?_
    rw [← hpages, execPages_none, execPages_some, ht, Allocator.freePages_pages, hfree,
      tablePages_some]
    ext x
    simp only [Multiset.count_add, Multiset.count_zero]
    omega

theorem execArgument_conserves {W : ℕ → Prop} {p : Process} (h : p.OkBeside W)
    (hs : p.state = .runnable) {e : Exec}
    (he : p.exec = some e) (a : Allocator) : ConservesBeside W p a (p.execArgument e a) := by
  have hok := h.exec e he
  unfold execArgument
  obtain ⟨hnone, hpages⟩ | ⟨page, hsome, hpages⟩ := a.allocPage_cases
  · rw [show a.allocPage = (none, a.allocPage.2) from Prod.ext hnone rfl]
    exact failExec_conserves h hs hok.table (by rw [hpages, he])
  · rw [show a.allocPage = (some page, a.allocPage.2) from Prod.ext hsome rfl]
    refine conserves_exec h hs (fun e' he' => ?_) ?_
    · obtain rfl := Option.some.inj he'
      exact ⟨hok.table, hok.ready⟩
    · rw [he, execPages_some, execPages_some, ← hpages, ← Multiset.coe_add, Multiset.coe_singleton]
      ext x
      simp only [Multiset.count_add]
      omega

theorem execCreate_conserves {W : ℕ → Prop} {p : Process} (h : p.OkBeside W)
    (hs : p.state = .runnable) {e : Exec}
    (he : p.exec = some e) (hnone : e.pageTable = none) (trampoline : Page) (a : Allocator) :
    ConservesBeside W p a (p.execCreate e trampoline a) := by
  have hok := h.exec e he
  have htf := h.trapFrame (by simp [hs])
  unfold execCreate
  split
  next hn => simp [hn] at htf
  next trapFrame _ =>
    obtain ⟨r, a', heq, hr, hsome⟩ := createPagetable_spec trampoline trapFrame a
    simp only [heq, liftPanic_ok, ok_bind]
    cases r with
    | none => exact failExec_conserves h hs hok.table (by rw [hr rfl, he])
    | some t =>
      obtain ⟨hmapped, hpages⟩ := hsome t rfl
      refine conserves_exec h hs (fun e' he' => ?_) ?_
      · obtain rfl := Option.some.inj he'
        refine ⟨fun u hu => ?_, fun _ => rfl⟩
        obtain rfl := Option.some.inj hu
        exact ⟨hmapped, (by decide : pageCount 0 ≤ trapframePage)⟩
      · rw [he, execPages_some, execPages_some, hnone, ← hpages, tablePages_some, tablePages_none,
          show pageCount 0 = 0 from rfl, PageTable.pagesFrom]
        ext x
        simp only [Multiset.count_add, Multiset.count_zero]
        omega

theorem execSegment_conserves {W : ℕ → Prop} {p : Process} (h : p.OkBeside W)
    (hs : p.state = .runnable) {e : Exec}
    (he : p.exec = some e) {t : PageTable} (ht : e.pageTable = some t) (hready : e.ready = false)
    (newSize : ℕ) {permissions : PagePermissions} (hp : permissions ≠ .none) (a : Allocator) :
    ConservesBeside W p a (p.execSegment e newSize permissions a) := by
  have htable := (h.exec e he).table
  rw [ht] at htable
  unfold execSegment
  obtain ⟨r, t', a', heq, hok', hpages⟩ := alloc_user newSize permissions htable a hp
  have hexec : execPages (some { e with
      pageTable := some t', programSize := r.getD e.programSize }) + a'.pages =
      execPages p.exec + a.pages := by
    rw [he, execPages_some, execPages_some, ht, add_assoc, hpages, add_assoc]
  simp only [ht, heq, liftPanic_ok, ok_bind]
  split
  · refine conserves_exec h hs (fun e' he' => ?_) hexec
    obtain rfl := Option.some.inj he'
    exact ⟨hok', fun hr => absurd hr (by simp [hready])⟩
  · exact failExec_conserves h hs hok' hexec

/-- The size that `alloc` returns is the one asked for. -/
theorem alloc_size {t t' : PageTable} {a a' : Allocator} {oldSize newSize size : ℕ}
    {permissions : PagePermissions} (hle : oldSize ≤ newSize)
    (h : t.alloc a oldSize newSize permissions = .ok (some size, t', a')) : size = newSize := by
  unfold PageTable.alloc at h
  rw [if_neg (Nat.not_lt.mpr hle)] at h
  split at h
  · exact absurd h nofun
  next done _ _ _ =>
    cases done <;> simp at h
    exact h.1.symm

theorem tableOk_congr {t : PageTable} {size : ℕ} (size' : ℕ) (h : TableOk (some t) size)
    (hcount : pageCount size' = pageCount size) :
    TableOk (some t) size' ∧ tablePages (some t) size' = tablePages (some t) size := by
  refine ⟨fun u hu => ?_, by rw [tablePages_some, hcount, tablePages_some]⟩
  obtain ⟨hmapped, hle⟩ := h u hu
  refine ⟨hmapped.congr (fun w _ => ?_), hcount ▸ hle⟩
  unfold userPages
  rw [hcount]

theorem execStack_conserves {W : ℕ → Prop} {p : Process} (h : p.OkBeside W)
    (hs : p.state = .runnable) {e : Exec}
    (he : p.exec = some e) {t : PageTable} (ht : e.pageTable = some t) (a : Allocator) :
    ConservesBeside W p a (p.execStack e a) := by
  have htable := (h.exec e he).table
  rw [ht] at htable
  obtain ⟨haligned, hsame⟩ := tableOk_congr
    (pageCount e.programSize * pageSize) htable (PageTable.pageCount_mul _)
  unfold execStack
  obtain ⟨r, t', a', heq, hok', hpages⟩ := alloc_user
    (pageCount e.programSize * pageSize + 2 * pageSize) .data haligned a (by decide)
  simp only [ht, heq, liftPanic_ok, ok_bind]
  rw [hsame] at hpages
  have hexec : ∀ size ready, tablePages (some t') size + a'.pages =
      tablePages (some t) e.programSize + a.pages →
      execPages (some ⟨e.buffers, some t', size, ready⟩) + a'.pages = execPages p.exec + a.pages := by
    intro size ready hsize
    rw [he, execPages_some, execPages_some, ht, add_assoc, hsize, add_assoc]
  cases r with
  | none =>
    obtain ⟨hok'', hsame'⟩ := tableOk_congr e.programSize hok'
      (PageTable.pageCount_mul _).symm
    refine failExec_conserves h hs hok'' (hexec _ _ ?_)
    rw [hsame']
    exact hpages
  | some size =>
    have hsize := alloc_size (by omega) heq
    obtain ⟨hmapped, hle⟩ := hok' t' rfl
    have hcount : pageCount size = pageCount e.programSize + 2 := by
      rw [hsize, ← Nat.add_mul, PageTable.pageCount_mul]
    have hguard : size / pageSize - 2 < pageCount size := by
      rw [hcount, hsize]
      simp only [pageSize]
      omega
    have hmax := PageTable.trapframePage_lt
    obtain ⟨t'', hclear, hmapped', htable', hleaf⟩ :=
      PageTable.clearUser_spec hmapped (by
        have : pageCount size ≤ trapframePage := hle
        omega) (.inl hguard)
    simp only [hclear, liftPanic_ok, ok_bind]
    refine conserves_exec h hs (fun e' he' => ?_) ?_
    · obtain rfl := Option.some.inj he'
      refine ⟨fun u hu => ?_, fun _ => rfl⟩
      obtain rfl := Option.some.inj hu
      exact ⟨hmapped', hle⟩
    · have hfrom : t''.pagesFrom 0 (pageCount size) = t'.pagesFrom 0 (pageCount size) :=
        PageTable.pagesFrom_congr (fun w _ hw => hleaf w (by
          have : pageCount size ≤ trapframePage := hle
          omega))
      rw [← hexec size true hpages, execPages_some, execPages_some, tablePages_some, tablePages_some,
        hfrom, htable']

theorem execCommit_conserves {W : ℕ → Prop} {p : Process} (h : p.OkBeside W)
    (hs : p.state = .runnable) {e : Exec}
    (hW : ∀ w, ¬ W w) (he : p.exec = some e) (hready : e.ready = true) (a : Allocator) :
    ConservesBeside W p a (p.execCommit e a) := by
  have hok := h.exec e he
  obtain ⟨oldTable, hold⟩ := Option.isSome_iff_exists.mp (h.pageTable (by simp [hs]))
  obtain ⟨t, ht⟩ := Option.isSome_iff_exists.mp (hok.ready hready)
  obtain ⟨hmapped, hle⟩ := (tableOkBeside_iff hW).mp h.table oldTable hold
  obtain ⟨a', heq, hfree⟩ := PageTable.freePageTable_spec hmapped hle a
  unfold execCommit
  simp only [hold, ht, heq, liftPanic_ok, ok_bind]
  have htable := hok.table
  rw [ht] at htable
  refine ⟨_, _, rfl, ⟨fun hu => ?_, (tableOkBeside_iff hW).mpr htable, fun _ => rfl, h.trapFrame,
    fun _ => rfl, nofun⟩, ?_⟩
  · simp [hs] at hu
  · simp only [pages, he, hold, execPages_some, execPages_none, ht,
      Allocator.freePages_pages, hfree, tablePages_some]
    ext x
    simp only [Multiset.count_add, Multiset.count_zero]
    omega

/-- The first process; the panics of its creation are part of the boot. -/
theorem initFirstUser_conserves {trampoline : Page} {a : Allocator} {r : Process × Allocator}
    (hr : Process.unused.initFirstUser trampoline a = .ok r) :
    Conserves .unused a (.ok r) := by
  obtain ⟨done, p', a', heq, hpages, hfail, hdone⟩ := init_spec trampoline a
  unfold initFirstUser at hr
  rw [heq, ok_bind] at hr
  cases done with
  | false =>
    obtain rfl := hfail rfl
    obtain rfl := Except.ok.inj hr
    exact ⟨.unused, a', rfl, .of_unused, by rw [hpages, pages_unused, zero_add]⟩
  | true =>
    obtain ⟨page, t, rfl, hmapped⟩ := hdone rfl
    simp only [fresh] at hr
    obtain ⟨hnone, ha⟩ | ⟨code, hsome, ha⟩ := a'.allocPage_cases
    · rw [show a'.allocPage = (none, a'.allocPage.2) from Prod.ext hnone rfl] at hr
      exact absurd hr nofun
    · rw [show a'.allocPage = (some code, a'.allocPage.2) from Prod.ext hsome rfl] at hr
      have hmap := (hmapped.extended a' 0).map (by decide) ha
        (by decide : (⟨true, true, true⟩ : PagePermissions) ≠ .none) true
      simp only at hr
      generalize t.map a'.allocPage.2 0 code ⟨true, true, true⟩ true = m at hr hmap
      split at hr
      next _ t' a'' =>
        obtain ⟨-, hext, -⟩ | ⟨hne, -⟩ := hmap
        · obtain rfl := Except.ok.inj hr
          obtain ⟨htable, hsame⟩ := extended_user 0 pageSize hext (Nat.zero_le _)
          refine ⟨_, a'', rfl, fresh_ok htable, ?_⟩
          simp only [pages, fresh, Option.elim_some, execPages_none, add_zero, add_assoc] at hpages ⊢
          rw [hsame, hpages]
          simp [Process.unused]
        · exact absurd rfl hne
      · exact absurd hr nofun

theorem initFirstUser_panic {trampoline : Page} {a : Allocator} {p : Panic}
    (hr : Process.unused.initFirstUser trampoline a = .error p) (q : Memory.Panic) :
    p ≠ .memory q := by
  obtain ⟨done, p', a', heq, -, -, hdone⟩ := init_spec trampoline a
  unfold initFirstUser at hr
  rw [heq, ok_bind] at hr
  cases done with
  | false => exact absurd hr nofun
  | true =>
    obtain ⟨page, t, rfl, -⟩ := hdone rfl
    simp only [fresh] at hr
    split at hr
    · obtain rfl := Except.error.inj hr
      exact nofun
    · obtain rfl := Except.error.inj hr
      exact nofun
    · split at hr
      · exact absurd hr nofun
      · obtain rfl := Except.error.inj hr
        exact nofun

end Process

/-! ## Runs -/

open Process

/-- The pages of all processes. -/
def State.ownedPages (s : State) : Multiset Page := ∑ i, (s.processes i).pages

def Invariant (s : State) : Prop := ∀ i, (s.processes i).Ok

theorem sum_pages_update (f : Slot → Process) (i : Slot) (p : Process) :
    ∑ j, (Function.update f i p j).pages + (f i).pages = ∑ j, (f j).pages + p.pages := by
  have hrest : ∑ j ∈ Finset.univ.erase i, (Function.update f i p j).pages =
      ∑ j ∈ Finset.univ.erase i, (f j).pages :=
    Finset.sum_congr rfl (fun j hj => by
      rw [Function.update_of_ne (Finset.ne_of_mem_erase hj)])
  rw [← Finset.add_sum_erase _ _ (Finset.mem_univ i),
    ← Finset.add_sum_erase _ (fun j => (f j).pages) (Finset.mem_univ i), hrest,
    Function.update_self]
  generalize ∑ j ∈ Finset.univ.erase i, (f j).pages = rest
  ext x
  simp only [Multiset.count_add]
  omega

variable {s s' : State}

/-- The same of processes that have pages mapped beside their user pages. -/
def InvariantBeside (W : Slot → ℕ → Prop) (s : State) : Prop :=
  ∀ i, (s.processes i).OkBeside (W i)

theorem invariantBeside_iff {W : Slot → ℕ → Prop} (hW : ∀ i w, ¬ W i w) :
    InvariantBeside W s ↔ Invariant s :=
  forall_congr' (fun i => okBeside_iff (hW i))

/-- What every event does that is not disabled. -/
def StepOkBeside (W : Slot → ℕ → Prop) (s : State) (r : Except Fault State) : Prop :=
  r = .error .disabled ∨ ∃ s', r = .ok s' ∧ InvariantBeside W s' ∧
    s'.allocator.pages + s'.ownedPages = s.allocator.pages + s.ownedPages

section Beside
variable {W : Slot → ℕ → Prop}

/-- A call of the process in slot `i` that keeps its pages. -/
theorem InvariantBeside.stepOk (h : InvariantBeside W s) {i : Slot} {r : Result}
    (hr : ConservesBeside (W i) (s.processes i) s.allocator r) :
    StepOkBeside W s (s.apply i r) := by
  obtain ⟨p, a, rfl, hok, hpages⟩ := hr
  refine .inr ⟨_, rfl, fun j => ?_, ?_⟩
  · by_cases hj : j = i
    · subst hj
      simpa using hok
    · simpa [hj] using h j
  · have hsum := sum_pages_update s.processes i p
    simp only [State.ownedPages]
    generalize ∑ j, (Function.update s.processes i p j).pages = new at *
    generalize ∑ j, (s.processes j).pages = old at *
    ext x
    have h₁ := congrArg (Multiset.count x) hsum
    have h₂ := congrArg (Multiset.count x) hpages
    simp only [Multiset.count_add] at *
    omega

theorem StepOkBeside.disabled (s : State) : StepOkBeside W s (.error .disabled) := .inl rfl

/-- In `exec` a process runs. -/
theorem Process.OkBeside.runnable {W : ℕ → Prop} {p : Process} (h : p.OkBeside W) {e : Exec}
    (he : p.exec = some e) : p.state = .runnable := by
  cases hs : p.state with
  | runnable => rfl
  | unused =>
    rw [(h.unused hs).1] at he
    exact absurd he nofun
  | zombie =>
    rw [h.zombie hs] at he
    exact absurd he nofun

/-- The event frees the page table of the process. -/
def Event.Frees (i : Slot) : Event → Prop
  | .execCommit j => j = i
  | .reap j => j = i
  | _ => False

theorem step_stepOk (h : InvariantBeside W s) (event : Event)
    (hplain : ∀ i, event.Frees i → ∀ w, ¬ W i w) :
    StepOkBeside W s (step s event) ∨
      ∃ i p, event = .initFirstUser i ∧ step s event = .error (.panic p) ∧
        ∀ q, p ≠ .memory q := by
  unfold step
  cases event with
  | initFirstUser i =>
    simp only
    split
    next hg =>
      have hunused := ((h i).unused hg).1
      rw [hunused]
      cases hr : Process.unused.initFirstUser s.trampoline s.allocator with
      | error p => exact .inr ⟨i, p, rfl, rfl, initFirstUser_panic hr⟩
      | ok r =>
        have hc := initFirstUser_conserves hr
        rw [← hunused] at hc
        exact .inl (h.stepOk (hc.beside ((h i).unused hg).2))
    · exact .inl (.disabled s)
  | fork parent child =>
    left
    simp only
    split
    next hg =>
      have hunused := ((h child).unused hg.2).1
      have hc := fork_conserves (h parent) (by rw [hg.1.1]; decide) s.trampoline s.allocator
      rw [← hunused] at hc
      exact h.stepOk (hc.beside ((h child).unused hg.2).2)
    · exact .disabled s
  | changeProcessSize i sizeDiff =>
    left
    simp only
    split
    next hg => exact h.stepOk (changeProcessSize_conserves (h i) hg.1 _ _)
    · exact .disabled s
  | execStart i =>
    left
    simp only
    split
    next hg =>
      refine h.stepOk (conserves_exec (h i) hg.1 (fun e he => ?_) ?_)
      · obtain rfl := Option.some.inj he
        exact ⟨TableOk.none 0, nofun⟩
      · rw [Option.isNone_iff_eq_none.mp hg.2]
        simp [Exec.start]
    · exact .disabled s
  | execArgument i =>
    left
    simp only
    split
    next e he =>
      split
      · exact h.stepOk (execArgument_conserves (h i) ((h i).runnable he) he _)
      · exact .disabled s
    · exact .disabled s
  | execCreate i =>
    left
    simp only
    split
    next e he =>
      split
      next hnone =>
        exact h.stepOk (execCreate_conserves (h i) ((h i).runnable he) he
          (Option.isNone_iff_eq_none.mp hnone) _ _)
      · exact .disabled s
    · exact .disabled s
  | execSegment i newSize permissions =>
    left
    simp only
    split
    next e he =>
      split
      next hg =>
        obtain ⟨t, ht⟩ := Option.isSome_iff_exists.mp hg.1
        exact h.stepOk (execSegment_conserves (h i) ((h i).runnable he) he ht hg.2.1 _ hg.2.2 _)
      · exact .disabled s
    · exact .disabled s
  | execStack i =>
    left
    simp only
    split
    next e he =>
      split
      next hg =>
        obtain ⟨t, ht⟩ := Option.isSome_iff_exists.mp hg.1
        exact h.stepOk (execStack_conserves (h i) ((h i).runnable he) he ht _)
      · exact .disabled s
    · exact .disabled s
  | execCommit i =>
    left
    simp only
    split
    next e he =>
      split
      next hready =>
        exact h.stepOk (execCommit_conserves (h i) ((h i).runnable he) (hplain i rfl) he hready _)
      · exact .disabled s
    · exact .disabled s
  | execFail i =>
    left
    simp only
    split
    next e he =>
      refine h.stepOk (failExec_conserves (h i) ((h i).runnable he) ((h i).exec e he).table ?_)
      rw [he]
    · exact .disabled s
  | exit i =>
    left
    simp only
    split
    next hg =>
      have hp := h i
      refine h.stepOk ⟨_, _, rfl, ⟨nofun, hp.table, fun _ => hp.pageTable (by rw [hg.1]; decide),
        fun _ => hp.trapFrame (by rw [hg.1]; decide),
        fun _ => Option.isNone_iff_eq_none.mp hg.2, hp.exec⟩, rfl⟩
    · exact .disabled s
  | reap i =>
    left
    simp only
    split
    next hg =>
      have hp := (okBeside_iff (hplain i rfl)).mp (h i)
      obtain ⟨a, heq, hpages⟩ := free_spec hp.table (hp.zombie hg) s.allocator
      have hc : Conserves (s.processes i) s.allocator ((s.processes i).free s.allocator) :=
        ⟨.unused, a, heq, .of_unused, by rw [pages_unused, zero_add, hpages]⟩
      exact h.stepOk (hc.beside (hplain i rfl))
    · exact .disabled s

end Beside

/-- One step keeps all pages. -/
theorem step_conserves (h : Invariant s) {event : Event} (hs : step s event = .ok s') :
    Invariant s' ∧ s'.allocator.pages + s'.ownedPages = s.allocator.pages + s.ownedPages := by
  have hnone : ∀ i : Slot, ∀ w : ℕ, ¬ (fun _ _ => False) i w := fun _ _ => id
  obtain (hd | ⟨s'', heq, hinv, hpages⟩) | ⟨i, p, -, hp, -⟩ :=
    step_stepOk ((invariantBeside_iff hnone).mpr h) event (fun i _ => hnone i)
  · rw [hd] at hs
    exact absurd hs nofun
  · obtain rfl := Except.ok.inj (hs.symm.trans heq)
    exact ⟨(invariantBeside_iff hnone).mp hinv, hpages⟩
  · rw [hp] at hs
    exact absurd hs nofun

/-- No process exists. -/
def State.Initial (s : State) : Prop := ∀ i, s.processes i = .unused

theorem State.Initial.ownedPages (h : s.Initial) : s.ownedPages = 0 := by
  refine Finset.sum_eq_zero (fun i _ => ?_)
  rw [h i, pages_unused]

/-- In every run from a state without processes: the pages that were free at the
start are those that are free now and those of processes, each of them once; the
user pages of a table are all that it maps besides trampoline and trapframe; no
call panics after the boot; and when all processes are reaped, the free pages
are the ones of the start. -/
theorem physical_pages_conserved {s₀ s : State} {events : List Event} (h₀ : s₀.Initial)
    (hnodup : s₀.allocator.free.Nodup)
    (hrun : Transition.run (fun s event => (step s event).toOption) s₀ events = some s) :
    s.allocator.pages + s.ownedPages = s₀.allocator.pages ∧
      (s.allocator.pages + s.ownedPages).Nodup ∧
      (∀ i, TableOk (s.processes i).pageTable (s.processes i).size ∧
        ∀ e, (s.processes i).exec = some e → TableOk e.pageTable e.programSize) ∧
      (∀ event p, step s event = .error (.panic p) → ∃ i, event = .initFirstUser i) ∧
      ((∀ i, (s.processes i).state = .unused) → s.allocator.pages = s₀.allocator.pages) := by
  have hinv : Invariant s ∧ s.allocator.pages + s.ownedPages = s₀.allocator.pages := by
    refine Transition.run_induction
      (P := fun _ s => Invariant s ∧ s.allocator.pages + s.ownedPages = s₀.allocator.pages)
      ⟨fun i => by rw [h₀ i]; exact .of_unused, by rw [h₀.ownedPages, add_zero]⟩ ?_ events s hrun
    intro _ s event s' _ h hs
    have hs : step s event = .ok s' := by
      cases hstep : step s event with
      | error f => rw [hstep] at hs; exact absurd hs nofun
      | ok s'' => rw [hstep] at hs; exact congrArg Except.ok (Option.some.inj hs)
    obtain ⟨hinv, hpages⟩ := step_conserves h.1 hs
    exact ⟨hinv, hpages.trans h.2⟩
  obtain ⟨hinv, hpages⟩ := hinv
  refine ⟨hpages, hpages ▸ hnodup, fun i => ⟨(hinv i).table, fun e he => ((hinv i).exec e he).table⟩,
    fun event p hp => ?_, fun hall => ?_⟩
  · have hnone : ∀ i : Slot, ∀ w : ℕ, ¬ (fun _ _ => False) i w := fun _ _ => id
    obtain (hd | ⟨s', heq, -⟩) | ⟨i, p, hboot, -⟩ :=
      step_stepOk ((invariantBeside_iff hnone).mpr hinv) event (fun i _ => hnone i)
    · rw [hd] at hp
      exact absurd hp (by simp)
    · rw [heq] at hp
      exact absurd hp nofun
    · exact ⟨i, hboot⟩
  · have hinitial : s.Initial := fun i => (hinv i).unused (hall i)
    rw [← hpages, hinitial.ownedPages, add_zero]

def boot : State :=
  ⟨⟨List.range' 1 20, fun _ => false, 0⟩, 0, fun _ => .unused⟩

/-- The first process has a child, which exits and is reaped. -/
def family : List Event := [.initFirstUser 0, .fork 0 1, .exit 1, .reap 1]

theorem physical_pages_conserved_family :
    ∃ s, Transition.run (fun s event => (step s event).toOption) boot family = some s ∧
      s.allocator.pages + s.ownedPages = boot.allocator.pages := by
  have hrun : (Transition.run (fun s event => (step s event).toOption) boot family).isSome := by
    decide +kernel
  obtain ⟨s, hs⟩ := Option.isSome_iff_exists.mp hrun
  exact ⟨s, hs, (physical_pages_conserved (fun _ => rfl) List.nodup_range' hs).1⟩

end Zigmaos.ProcessMemory
