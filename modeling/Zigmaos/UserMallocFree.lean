import Zigmaos.UserMallocLayout

/-!
# Freeing a block

`free` puts the block in behind the node before it and joins it with the free
blocks on both sides. Joining is one step, which is made at the block and at the
node before it, each time if the next node of the list begins where it ends.
-/
namespace Zigmaos.UserMalloc

open CircularList

variable {base brk x p bp : ℕ} {F B : Finset ℕ} {h : Heap} {obtained : List (ℕ × ℕ)}

namespace Heap

theorem setPtr_ptr (h : Heap) (p next : ℕ) :
    (h.setPtr p next).ptr = Function.update h.ptr p next := rfl

theorem setSize_size (h : Heap) (p n : ℕ) :
    (h.setSize p n).size = Function.update h.size p (n % 2 ^ 32) := rfl

theorem blockEnd_eq (h : Heap) (p : ℕ) : h.blockEnd p = p + h.size p * 16 := rfl

/-- A block is put in behind a node. -/
def linkIn (h : Heap) (bp p : ℕ) : Heap :=
  { (h.setPtr bp (h.ptr p)).setPtr p bp with freep := p }

/-- A block takes in the next one of the list. -/
def absorb (h : Heap) (x : ℕ) : Heap :=
  (h.setSize x (h.size x + h.size (h.ptr x))).setPtr x (h.ptr (h.ptr x))

def absorbIf (h : Heap) (x : ℕ) : Heap := if h.blockEnd x = h.ptr x then h.absorb x else h

theorem linkIn_ptr (h : Heap) (bp p : ℕ) :
    (h.linkIn bp p).ptr = Function.update (Function.update h.ptr bp (h.ptr p)) p bp := rfl

@[simp] theorem linkIn_size (h : Heap) (bp p : ℕ) : (h.linkIn bp p).size = h.size := rfl

@[simp] theorem linkIn_freep (h : Heap) (bp p : ℕ) : (h.linkIn bp p).freep = p := rfl

theorem linkIn_ptr_self (h : Heap) (bp p : ℕ) : (h.linkIn bp p).ptr p = bp :=
  Function.update_self ..

theorem linkIn_ptr_block (h : Heap) (hne : bp ≠ p) : (h.linkIn bp p).ptr bp = h.ptr p := by
  rw [linkIn_ptr, Function.update_of_ne hne, Function.update_self]

theorem linkIn_ptr_of_ne (h : Heap) {a : ℕ} (hbp : a ≠ bp) (hp : a ≠ p) :
    (h.linkIn bp p).ptr a = h.ptr a := by
  rw [linkIn_ptr, Function.update_of_ne hp, Function.update_of_ne hbp]

theorem absorb_ptr (h : Heap) (x : ℕ) :
    (h.absorb x).ptr = Function.update h.ptr x (h.ptr (h.ptr x)) := rfl

theorem absorb_size (h : Heap) (hfit : h.size x + h.size (h.ptr x) < 2 ^ 32) :
    (h.absorb x).size = Function.update h.size x (h.size x + h.size (h.ptr x)) := by
  rw [← Nat.mod_eq_of_lt hfit]
  rfl

@[simp] theorem absorbIf_freep (h : Heap) (x : ℕ) : (h.absorbIf x).freep = h.freep := by
  rw [absorbIf]
  split
  · rfl
  · rfl

theorem absorbIf_of_ne (h : Heap) {a : ℕ} (ha : a ≠ x) :
    (h.absorbIf x).ptr a = h.ptr a ∧ (h.absorbIf x).size a = h.size a := by
  rw [absorbIf]
  split
  · exact ⟨Function.update_of_ne ha .., Function.update_of_ne ha ..⟩
  · exact ⟨rfl, rfl⟩

theorem absorbIf_size (h : Heap)
    (hfit : h.blockEnd x = h.ptr x → h.size x + h.size (h.ptr x) < 2 ^ 32) :
    (h.absorbIf x).size x =
      if h.blockEnd x = h.ptr x then h.size x + h.size (h.ptr x) else h.size x := by
  rw [absorbIf]
  split
  next hadj => rw [h.absorb_size (hfit hadj), Function.update_self]
  · rfl

/-- What `free` does to the headers, one step at a time. -/
theorem link_eq (h : Heap) (hne : bp ≠ p)
    (hnext : h.blockEnd bp = h.ptr p → h.ptr p ≠ p ∧ h.ptr p ≠ bp) :
    h.link bp p = ((h.linkIn bp p).absorbIf bp).absorbIf p := by
  have hptr := h.linkIn_ptr_block hne
  have hcond : (h.linkIn bp p).blockEnd bp = h.blockEnd bp := rfl
  have hp := h.linkIn_ptr_self bp p
  obtain ⟨hp₁, hp₂⟩ := (h.linkIn bp p).absorbIf_of_ne hne.symm
  rw [hp] at hp₁
  have hend : ((h.linkIn bp p).absorbIf bp).blockEnd p = h.blockEnd p := by
    rw [blockEnd, hp₂]
    rfl
  have houter : ((h.linkIn bp p).absorbIf bp).absorbIf p =
      if h.blockEnd p = bp then ((h.linkIn bp p).absorbIf bp).absorb p
      else (h.linkIn bp p).absorbIf bp := by
    rw [absorbIf, hend, hp₁]
  rw [houter, absorbIf, hcond, hptr]
  by_cases hadj : h.blockEnd bp = h.ptr p
  · obtain ⟨hqp, hqb⟩ := hnext hadj
    have hend' : ((h.setSize bp (h.size bp + h.size (h.ptr p))).setPtr bp
        (h.ptr (h.ptr p))).blockEnd p = h.blockEnd p := by
      rw [blockEnd]
      exact congrArg (p + · * headerSize) (Function.update_of_ne hne.symm ..)
    rw [if_pos hadj, link, if_pos hadj]
    by_cases hprev : h.blockEnd p = bp
    · simp only [hend', if_pos hprev]
      congr 1
      · funext a
        simp only [absorb, setPtr, setSize, linkIn, Function.update_apply]
        grind
      · funext a
        simp only [absorb, setPtr, setSize, linkIn, Function.update_apply]
        grind
    · simp only [hend', if_neg hprev]
      congr 1
      · funext a
        simp only [setPtr, setSize, linkIn, Function.update_apply]
        grind
      · funext a
        simp only [setPtr, setSize, linkIn, Function.update_apply]
        grind
  · have hend' : (h.setPtr bp (h.ptr p)).blockEnd p = h.blockEnd p := rfl
    rw [if_neg hadj, link, if_neg hadj]
    by_cases hprev : h.blockEnd p = bp
    · simp only [hend', if_pos hprev]
      congr 1
      · funext a
        simp only [setPtr, setSize, linkIn, Function.update_apply]
        grind
      · funext a
        simp only [setPtr, setSize, linkIn, Function.update_apply]
        grind
    · simp only [hend', if_neg hprev]
      rfl

end Heap

/-! ## The list and the layout -/

/-- The free blocks `F`, the sentinel among them, and all blocks `B`. -/
structure Blocks (base : ℕ) (F B : Finset ℕ) (h : Heap) (brk : ℕ) (obtained : List (ℕ × ℕ)) :
    Prop where
  circular : Circular F base h.ptr
  layout : Layout base B h.size brk obtained
  sub : F ⊆ B

/-- The node is not a free block that ends where the next one begins. -/
def SeparateAt (base : ℕ) (h : Heap) (a : ℕ) : Prop := a ≠ base → h.blockEnd a ≠ h.ptr a

/-- The blocks that are allocated. -/
def Allocated (F B : Finset ℕ) (a : ℕ) : Prop := a ∈ B ∧ a ∉ F

/-- The blocks are linked, and the list has no two blocks that could be joined. -/
structure WellLinked (base : ℕ) (F B : Finset ℕ) (h : Heap) (brk : ℕ) (obtained : List (ℕ × ℕ)) :
    Prop where
  blocks : Blocks base F B h brk obtained
  separate : ∀ a ∈ F, SeparateAt base h a
  freep : h.freep ∈ F

theorem Blocks.lt_blockEnd (hb : Blocks base F B h brk obtained) (hx : x ∈ B) (hne : x ≠ base) :
    base < x ∧ x < h.blockEnd x := by
  have := hb.layout.good x hx hne
  rw [Heap.blockEnd_eq]
  omega

theorem Blocks.linkIn (hb : Blocks base F B h brk obtained) (hbp : Allocated F B bp)
    (hp : Before F bp p) : Blocks base (insert bp F) B (h.linkIn bp p) brk obtained where
  circular := hb.circular.insert hp hbp.2
  layout := hb.layout
  sub := Finset.insert_subset hbp.1 hb.sub

theorem Blocks.absorb (hb : Blocks base F B h brk obtained) (hx : x ∈ F) (hxb : x ≠ base)
    (hadj : h.blockEnd x = h.ptr x) (hfit : h.size x + h.size (h.ptr x) < 2 ^ 32) :
    Blocks base (F.erase (h.ptr x)) (B.erase (h.ptr x)) (h.absorb x) brk obtained := by
  have hlt := hb.lt_blockEnd (hb.sub hx) hxb
  have hyb : h.ptr x ≠ base := by omega
  have hy := hb.sub (hb.circular.next_mem x hx)
  refine ⟨hb.circular.erase hx hyb, ?_, Finset.erase_subset_erase _ hb.sub⟩
  rw [h.absorb_size hfit]
  exact hb.layout.join (hb.sub hx) hy hxb hyb hadj hfit

/-- What joining a block with the next one leaves. -/
structure Absorbed (base : ℕ) (F B : Finset ℕ) (h : Heap) (brk : ℕ) (obtained : List (ℕ × ℕ))
    (x : ℕ) (F' B' : Finset ℕ) : Prop where
  blocks : Blocks base F' B' (h.absorbIf x) brk obtained
  keeps : ∀ a ∈ F, a ≠ h.ptr x ∨ h.blockEnd x ≠ h.ptr x → a ∈ F'
  sub : F' ⊆ F
  allocated : ∀ a, Allocated F' B' a ↔ Allocated F B a
  separate : ∀ E : ℕ → Prop, (∀ a ∈ F, a ≠ x → ¬ E a → SeparateAt base h a) →
    (h.blockEnd x = h.ptr x → ¬ E (h.ptr x)) →
    ∀ a ∈ F', ¬ E a → SeparateAt base (h.absorbIf x) a

theorem Blocks.absorbIf (hb : Blocks base F B h brk obtained) (hx : x ∈ F) (hxb : x ≠ base)
    (hfit : h.blockEnd x = h.ptr x → h.size x + h.size (h.ptr x) < 2 ^ 32) :
    ∃ F' B', Absorbed base F B h brk obtained x F' B' := by
  by_cases hadj : h.blockEnd x = h.ptr x
  · have hlt := hb.lt_blockEnd (hb.sub hx) hxb
    have hyx : h.ptr x ≠ x := by omega
    have hy := hb.circular.next_mem x hx
    have heq : h.absorbIf x = h.absorb x := if_pos hadj
    refine ⟨F.erase (h.ptr x), B.erase (h.ptr x), ?_, fun a ha hne => ?_,
      Finset.erase_subset _ F, fun a => ?_, fun E hsep hE a ha hEa hab => ?_⟩
    · rw [heq]
      exact hb.absorb hx hxb hadj (hfit hadj)
    · exact Finset.mem_erase.mpr ⟨hne.resolve_right (fun hn => hn hadj), ha⟩
    · simp only [Allocated, Finset.mem_erase, not_and]
      constructor
      · intro ⟨⟨hay, ha⟩, hF⟩
        exact ⟨ha, hF hay⟩
      · intro ⟨ha, hF⟩
        exact ⟨⟨fun hay => hF (hay ▸ hy), ha⟩, fun _ => hF⟩
    · by_cases hax : a = x
      · -- The block now ends where the one it took in did.
        have hnext := hsep (h.ptr x) hy hyx (hE hadj) (by omega)
        have hend : (h.absorb x).blockEnd x = h.blockEnd (h.ptr x) := by
          rw [Heap.blockEnd_eq, h.absorb_size (hfit hadj), Function.update_self, Heap.blockEnd_eq,
            ← hadj, Heap.blockEnd_eq]
          omega
        rw [hax, heq, hend, h.absorb_ptr, Function.update_self]
        exact hnext
      · obtain ⟨hptr, hsize⟩ := h.absorbIf_of_ne hax
        rw [Heap.blockEnd, hptr, hsize]
        exact hsep a (Finset.mem_of_mem_erase ha) hax hEa hab
  · have heq : h.absorbIf x = h := if_neg hadj
    refine ⟨F, B, ?_, fun a ha _ => ha, subset_rfl, fun a => Iff.rfl,
      fun E hsep _ a ha hEa hab => ?_⟩
    · rw [heq]
      exact hb
    · rw [heq]
      by_cases hax : a = x
      · rw [hax]
        exact hadj
      · exact hsep a ha hax hEa hab

/-! ## Freeing -/

/-- The units of the free blocks that `free` would join with the block make a `uint`
with its own. -/
structure Joinable (free : ℕ → Prop) (h : Heap) (bp : ℕ) : Prop where
  next : ∀ q, free q → h.blockEnd bp = q → h.size bp + h.size q < 2 ^ 32
  previous : ∀ p, free p → h.blockEnd p = bp → h.size p + h.size bp < 2 ^ 32
  both : ∀ p q, free p → free q → h.blockEnd p = bp → h.blockEnd bp = q →
    h.size p + (h.size bp + h.size q) < 2 ^ 32

/-- What `free` leaves. -/
structure Freed (base : ℕ) (F B : Finset ℕ) (h : Heap) (brk : ℕ) (obtained : List (ℕ × ℕ))
    (bp : ℕ) (h' : Heap) (F' B' : Finset ℕ) : Prop where
  linked : WellLinked base F' B' h' brk obtained
  allocated : ∀ a, Allocated F' B' a ↔ Allocated F B a ∧ a ≠ bp
  sizes : ∀ a, Allocated F' B' a → h'.size a = h.size a
  joined : ∃ t ∈ F', h.size bp ≤ h'.size t

theorem Blocks.link (hb : Blocks base F B h brk obtained) (hsep : ∀ a ∈ F, SeparateAt base h a)
    (hbp : Allocated F B bp) (hp : Before F bp p) (hjoin : Joinable (· ∈ F) h bp) :
    ∃ F' B', Freed base F B h brk obtained bp (h.link bp p) F' B' := by
  have hbpb : bp ≠ base := fun heq => hbp.2 (heq ▸ hb.circular.first_mem)
  have hlt := hb.lt_blockEnd hbp.1 hbpb
  have hne : bp ≠ p := hp.lt.ne'
  have hq := hb.circular.next_mem p hp.mem
  have hqbp : h.ptr p ≠ bp := fun heq => hbp.2 (heq ▸ hq)
  have hqp : h.blockEnd bp = h.ptr p → h.ptr p ≠ p := fun hadj => by
    have := hp.lt
    omega
  have hin := hb.linkIn hbp hp
  have hptr : (h.linkIn bp p).ptr bp = h.ptr p := h.linkIn_ptr_block hne
  have hsize : (h.linkIn bp p).size = h.size := rfl
  have hfit : (h.linkIn bp p).blockEnd bp = (h.linkIn bp p).ptr bp →
      (h.linkIn bp p).size bp + (h.linkIn bp p).size ((h.linkIn bp p).ptr bp) < 2 ^ 32 := by
    rw [hptr]
    exact hjoin.next _ hq
  obtain ⟨F₂, B₂, h₂⟩ := hin.absorbIf (Finset.mem_insert_self bp F) hbpb hfit
  have hgrown : ((h.linkIn bp p).absorbIf bp).size bp =
      if h.blockEnd bp = h.ptr p then h.size bp + h.size (h.ptr p) else h.size bp := by
    rw [Heap.absorbIf_size _ hfit, hptr]
    rfl
  have hle : h.size bp ≤ ((h.linkIn bp p).absorbIf bp).size bp := by
    rw [hgrown]
    split
    · exact Nat.le_add_right _ _
    · exact le_rfl
  obtain ⟨hp₁, hp₂⟩ := (h.linkIn bp p).absorbIf_of_ne hne.symm
  rw [h.linkIn_ptr_self] at hp₁
  have hpF₂ : p ∈ F₂ := by
    refine h₂.keeps p (Finset.mem_insert_of_mem hp.mem) ?_
    rw [hptr]
    exact or_iff_not_imp_right.mpr (fun hadj => (hqp (not_not.mp hadj)).symm)
  have hbpF₂ : bp ∈ F₂ := by
    refine h₂.keeps bp (Finset.mem_insert_self bp F) (.inl ?_)
    rw [hptr]
    exact hqbp.symm
  have hend : ((h.linkIn bp p).absorbIf bp).blockEnd p = h.blockEnd p := by
    rw [Heap.blockEnd, hp₂]
    rfl
  have hpbase : h.blockEnd p = bp → p ≠ base := by
    intro hadj heq
    rw [heq, Heap.blockEnd_eq, hb.layout.sentinel] at hadj
    omega
  have hsep₂ : ∀ a ∈ F₂, ¬ a = p → SeparateAt base ((h.linkIn bp p).absorbIf bp) a := by
    refine h₂.separate (· = p) (fun a ha habp hap => ?_) (fun hadj => ?_)
    · rw [SeparateAt, Heap.blockEnd, h.linkIn_ptr_of_ne habp hap]
      exact hsep a ((Finset.mem_insert.mp ha).resolve_left habp)
    · rw [hptr] at hadj ⊢
      exact hqp hadj
  have halloc₂ : ∀ a, Allocated F₂ B₂ a ↔ Allocated F B a ∧ a ≠ bp := by
    intro a
    rw [h₂.allocated, Allocated, Allocated, Finset.mem_insert, not_or]
    tauto
  rw [h.link_eq hne (fun hadj => ⟨hqp hadj, hqbp⟩)]
  by_cases hadj : h.blockEnd p = bp
  · have hfit₂ : h.size p + ((h.linkIn bp p).absorbIf bp).size bp < 2 ^ 32 := by
      rw [hgrown]
      split
      next hnext => exact hjoin.both p _ hp.mem hq hadj hnext
      · exact hjoin.previous p hp.mem hadj
    have hfit₃ : ((h.linkIn bp p).absorbIf bp).size p + ((h.linkIn bp p).absorbIf bp).size
        (((h.linkIn bp p).absorbIf bp).ptr p) < 2 ^ 32 := by
      rw [hp₁, hp₂]
      exact hfit₂
    obtain ⟨F₃, B₃, h₃⟩ := h₂.blocks.absorbIf hpF₂ (hpbase hadj) (fun _ => hfit₃)
    have hpF₃ : p ∈ F₃ := h₃.keeps p hpF₂ (.inl (by rw [hp₁]; exact hne.symm))
    refine ⟨F₃, B₃, ⟨h₃.blocks, fun a ha => ?_, ?_⟩, fun a => ?_, fun a ha => ?_, p, hpF₃, ?_⟩
    · exact h₃.separate (fun _ => False) (fun a ha hap _ => hsep₂ a ha hap) (fun _ => id) a ha id
    · rw [Heap.absorbIf_freep, Heap.absorbIf_freep, Heap.linkIn_freep]
      exact hpF₃
    · rw [h₃.allocated, halloc₂]
    · rw [h₃.allocated] at ha
      have hap : a ≠ p := fun heq => ha.2 (heq ▸ hpF₂)
      have habp : a ≠ bp := fun heq => ha.2 (heq ▸ hbpF₂)
      rw [(Heap.absorbIf_of_ne _ hap).2, (Heap.absorbIf_of_ne _ habp).2]
      rfl
    · rw [Heap.absorbIf_size _ (fun _ => hfit₃), hend, hp₁, if_pos hadj, hp₂]
      exact hle.trans (Nat.le_add_left _ _)
  · have heq : ((h.linkIn bp p).absorbIf bp).absorbIf p = (h.linkIn bp p).absorbIf bp := by
      rw [Heap.absorbIf, hend, hp₁, if_neg hadj]
    rw [heq]
    refine ⟨F₂, B₂, ⟨h₂.blocks, fun a ha hab => ?_, ?_⟩, halloc₂, fun a ha => ?_, bp, hbpF₂, hle⟩
    · by_cases hap : a = p
      · rw [hap, hend, hp₁]
        exact hadj
      · exact hsep₂ a ha hap hab
    · rw [Heap.absorbIf_freep, Heap.linkIn_freep]
      exact hpF₂
    · have habp : a ≠ bp := fun heq => ha.2 (heq ▸ hbpF₂)
      rw [(Heap.absorbIf_of_ne _ habp).2]
      rfl

/-- The loop of `free` stops at the node before the block. -/
theorem Blocks.isBefore_iff (hb : Blocks base F B h brk obtained) (hbp : Allocated F B bp)
    (hp : p ∈ F) : h.isBefore bp p = true ↔ Before F bp p := by
  have hbpb : bp ≠ base := fun heq => hbp.2 (heq ▸ hb.circular.first_mem)
  have hlt := (hb.lt_blockEnd hbp.1 hbpb).1
  have hbase := hb.circular.least p hp
  simp only [Heap.isBefore, Bool.or_eq_true, Bool.and_eq_true, decide_eq_true_eq]
  constructor
  · rintro (⟨h₁, h₂⟩ | ⟨h₁, h₂⟩)
    · refine ⟨hp, h₁, fun z hz => ?_⟩
      rcases lt_or_ge p z with hpz | hzp
      · exact .inr (h₂.le.trans (hb.circular.gap p hp z hz hpz))
      · exact .inl hzp
    · obtain ⟨hnext, hlast⟩ := (hb.circular.up p hp).resolve_left (not_lt.mpr h₁)
      exact ⟨hp, by omega, fun z hz => .inl (hlast z hz)⟩
  · intro hbefore
    rcases hb.circular.up p hp with hup | hlast
    · have hq := hb.circular.next_mem p hp
      have hle := (hbefore.rest _ hq).resolve_left (not_le.mpr hup)
      have hqbp : h.ptr p ≠ bp := fun heq => hbp.2 (heq ▸ hq)
      exact .inl ⟨hbefore.lt, lt_of_le_of_ne hle hqbp.symm⟩
    · exact .inr ⟨by omega, .inl hbefore.lt⟩

/-- `free` ends, and keeps the list and the layout. -/
theorem WellLinked.free (hw : WellLinked base F B h brk obtained) (hbp : Allocated F B bp)
    (hjoin : Joinable (· ∈ F) h bp) :
    ∃ h' F' B' n, (∀ fuel ≥ n, h.free fuel (bp + headerSize) = some h') ∧
      Freed base F B h brk obtained bp h' F' B' := by
  have hb := hw.blocks
  have hbpb : bp ≠ base := fun heq => hbp.2 (heq ▸ hb.circular.first_mem)
  obtain ⟨y, hy⟩ := hb.circular.exists_before (hb.lt_blockEnd hbp.1 hbpb).1
  obtain ⟨p, hp, hstop, n, hwalk⟩ :=
    hb.circular.walk_stops hw.freep hy.mem ((hb.isBefore_iff hbp hy.mem).mpr hy)
  obtain ⟨F', B', hfreed⟩ := hb.link hw.separate hbp ((hb.isBefore_iff hbp hp).mp hstop) hjoin
  refine ⟨h.link bp p, F', B', n, fun fuel hfuel => ?_, hfreed⟩
  rw [Heap.free, Nat.add_sub_cancel, hwalk fuel hfuel]
  rfl

end Zigmaos.UserMalloc
