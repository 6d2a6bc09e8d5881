import Mathlib.Computability.Language

/-!
# grep

The matcher of grep recognises the language that its pattern denotes, and the loop
over the buffer prints the lines of that language, however the reads cut the input.
A line that does not fit into the buffer, or a byte 0, ends the output.
-/
namespace Zigmaos.Grep

open Computability

/-- The bytes before the terminator. -/
abbrev Text := List UInt8

def newline : UInt8 := '\n'.toUInt8
def dot : UInt8 := '.'.toUInt8
def star : UInt8 := '*'.toUInt8
def caret : UInt8 := '^'.toUInt8
def dollar : UInt8 := '$'.toUInt8

/-! ## The matcher -/

/-- `here` is `matchhere` of the pattern behind the star. -/
def matchstar (c : UInt8) (here : Text → Bool) : Text → Bool
  | [] => here []
  | t :: text => here (t :: text) || ((t = c || c = dot) && matchstar c here text)

def matchhere : Text → Text → Bool
  | [], _ => true
  | [c], text =>
    if c = dollar then text.isEmpty
    else text.head?.any fun t => c = dot || c = t
  | c :: d :: re, text =>
    if d = star then matchstar c (matchhere re) text
    else (text.head?.any fun t => c = dot || c = t) && matchhere (d :: re) text.tail

/-- The loop of `match`. -/
def matchFrom (re : Text) : Text → Bool
  | [] => matchhere re []
  | t :: text => matchhere re (t :: text) || matchFrom re text

/-- `match` of the source. -/
def matchPattern (re text : Text) : Bool :=
  if re.head? = some caret then matchhere re.tail text else matchFrom re text

/-! ## The loop over the buffer -/

def strchr (s : Text) (c : UInt8) : Option ℕ :=
  match s with
  | [] => none
  | b :: s => if b = 0 then none else if b = c then some 0 else (strchr s c).map (· + 1)

theorem strchr_lt {s : Text} {c : UInt8} {q : ℕ} (h : strchr s c = some q) : q < s.length := by
  induction s generalizing q with
  | nil => cases h
  | cons b s ih =>
    rw [strchr] at h
    split at h
    · cases h
    split at h
    · cases h
      exact Nat.succ_pos _
    · obtain ⟨k, hk, rfl⟩ := Option.map_eq_some_iff.mp h
      exact Nat.succ_lt_succ (ih hk)

/-- The inner loop of `grep`: what it writes, and what is left behind `p`. -/
def lines (pattern p : Text) : Text × Text :=
  match h : strchr p newline with
  | none => ([], p)
  | some q =>
    have _ := strchr_lt h
    let rest := lines pattern (p.drop (q + 1))
    ((if matchPattern pattern (p.take q) then p.take (q + 1) else []) ++ rest.1, rest.2)
termination_by p.length
decreasing_by
  rw [List.length_drop]
  omega

def bufSize : ℕ := 1024

/-- How much the next `read` returns: what there is, but at most `room`. -/
def readSize (sizes : ℕ → ℕ) (k room : ℕ) (input : Text) : ℕ :=
  min (max 1 (sizes k)) (min room input.length)

theorem readSize_le (sizes : ℕ → ℕ) (k room : ℕ) (input : Text) :
    readSize sizes k room input ≤ input.length :=
  (min_le_right _ _).trans (min_le_right _ _)

/-- `grep` from read `k` on, with the first bytes of the buffer and the rest of the file. -/
def grep (pattern : Text) (sizes : ℕ → ℕ) (k : ℕ) (buf input : Text) : Text :=
  let n := readSize sizes k (bufSize - buf.length - 1) input
  if n = 0 then []
  else
    let out := lines pattern (buf ++ input.take n)
    out.1 ++ grep pattern sizes (k + 1) out.2 (input.drop n)
termination_by input.length
decreasing_by
  have hle := readSize_le sizes k (bufSize - buf.length - 1) input
  rw [List.length_drop]
  omega

/-! ## What a pattern denotes -/

/-- One byte that the character of a pattern stands for. -/
def single (c : UInt8) : Language UInt8 := {w | ∃ t, w = [t] ∧ (c = dot ∨ c = t)}

/-- A text that begins as the pattern says. -/
def hereLanguage : Text → Language UInt8
  | [] => ⊤
  | [c] => if c = dollar then 1 else single c * ⊤
  | c :: d :: re =>
    if d = star then (single c)∗ * hereLanguage re else single c * hereLanguage (d :: re)

def language (re : Text) : Language UInt8 :=
  if re.head? = some caret then hereLanguage re.tail else ⊤ * hereLanguage re

theorem mem_single_mul {c : UInt8} {l : Language UInt8} {text : Text} :
    text ∈ single c * l ↔
      (text.head?.any fun t => c = dot || c = t) = true ∧ text.tail ∈ l := by
  rw [Language.mem_mul]
  cases text with
  | nil =>
    constructor
    · rintro ⟨a, ⟨t, rfl, -⟩, b, -, hab⟩
      cases hab
    · rintro ⟨h, -⟩
      cases h
  | cons t text =>
    simp only [List.head?_cons, Option.any_some, Bool.or_eq_true, decide_eq_true_eq, List.tail_cons]
    constructor
    · rintro ⟨a, ⟨u, rfl, hu⟩, b, hb, hab⟩
      obtain ⟨rfl, rfl⟩ := List.cons.inj hab
      exact ⟨hu, hb⟩
    · rintro ⟨ht, hmem⟩
      exact ⟨[t], ⟨t, rfl, ht⟩, text, hmem, rfl⟩

theorem mem_kstar_mul {l m : Language UInt8} {text : Text} :
    text ∈ l∗ * m ↔ text ∈ m ∨ text ∈ l * (l∗ * m) := by
  conv_lhs => rw [← Language.one_add_self_mul_kstar_eq_kstar, add_mul, one_mul, mul_assoc]
  exact Iff.rfl

theorem matchstar_iff {c : UInt8} {here : Text → Bool} {l : Language UInt8}
    (h : ∀ text, here text = true ↔ text ∈ l) (text : Text) :
    matchstar c here text = true ↔ text ∈ (single c)∗ * l := by
  induction text with
  | nil =>
    rw [matchstar, h, mem_kstar_mul, mem_single_mul]
    simp
  | cons t text ih =>
    rw [matchstar, mem_kstar_mul, mem_single_mul, Bool.or_eq_true, h, Bool.and_eq_true, ih]
    simp only [List.head?_cons, Option.any_some, List.tail_cons, Bool.or_eq_true,
      decide_eq_true_eq, eq_comm (a := t), or_comm (a := c = t)]

theorem matchhere_iff : ∀ re text : Text, matchhere re text = true ↔ text ∈ hereLanguage re
  | [], text => by
    rw [matchhere, hereLanguage]
    exact iff_of_true rfl trivial
  | [c], text => by
    rw [matchhere, hereLanguage]
    by_cases hc : c = dollar
    · rw [if_pos hc, if_pos hc, Language.mem_one]
      exact List.isEmpty_iff
    · rw [if_neg hc, if_neg hc, mem_single_mul]
      exact (and_iff_left trivial).symm
  | c :: d :: re, text => by
    rw [matchhere, hereLanguage]
    by_cases hd : d = star
    · rw [if_pos hd, if_pos hd]
      exact matchstar_iff (matchhere_iff re) text
    · rw [if_neg hd, if_neg hd, mem_single_mul, Bool.and_eq_true, matchhere_iff (d :: re)]

theorem mem_top_mul_cons {l : Language UInt8} {t : UInt8} {text : Text} :
    t :: text ∈ ⊤ * l ↔ t :: text ∈ l ∨ text ∈ ⊤ * l := by
  simp only [Language.mem_mul]
  constructor
  · rintro ⟨a, -, b, hb, hab⟩
    cases a with
    | nil => exact .inl (by rw [← hab]; exact hb)
    | cons u a =>
      obtain ⟨-, rfl⟩ := List.cons.inj hab
      exact .inr ⟨a, trivial, b, hb, rfl⟩
  · rintro (h | ⟨a, -, b, hb, rfl⟩)
    · exact ⟨[], trivial, t :: text, h, rfl⟩
    · exact ⟨t :: a, trivial, b, hb, rfl⟩

theorem matchFrom_iff (re text : Text) : matchFrom re text = true ↔ text ∈ ⊤ * hereLanguage re := by
  induction text with
  | nil =>
    rw [matchFrom, matchhere_iff, Language.mem_mul]
    constructor
    · intro h
      exact ⟨[], trivial, [], h, rfl⟩
    · rintro ⟨a, -, b, hb, hab⟩
      obtain ⟨rfl, rfl⟩ := List.append_eq_nil_iff.mp hab
      exact hb
  | cons t text ih => rw [matchFrom, Bool.or_eq_true, matchhere_iff, ih, mem_top_mul_cons]

/-- The matcher decides the language of its pattern. -/
theorem matchPattern_iff (re text : Text) : matchPattern re text = true ↔ text ∈ language re := by
  unfold matchPattern language
  split
  · exact matchhere_iff re.tail text
  · exact matchFrom_iff re text

example : matchPattern (['a', '.', '*', 'c', '$'].map Char.toUInt8)
    (['b', 'a', 'b', 'c', 'c'].map Char.toUInt8) = true := by decide

/-! ## Lines -/

/-- A line that fits into the buffer with its newline. -/
structure IsLine (l : Text) : Prop where
  noZero : 0 ∉ l
  noNewline : newline ∉ l
  fits : l.length + 1 < bufSize

def unlines (ls : List Text) : Text := ls.flatMap (· ++ [newline])

theorem strchr_some {s : Text} {c : UInt8} {q : ℕ} (h : strchr s c = some q) :
    s = s.take q ++ c :: s.drop (q + 1) ∧ s.take (q + 1) = s.take q ++ [c] ∧
      0 ∉ s.take q ∧ c ∉ s.take q := by
  induction s generalizing q with
  | nil => cases h
  | cons b s ih =>
    rw [strchr] at h
    split at h
    · cases h
    next hb =>
    split at h
    next hbc =>
      cases h
      rw [hbc]
      exact ⟨rfl, rfl, List.not_mem_nil, List.not_mem_nil⟩
    next hbc =>
      obtain ⟨k, hk, rfl⟩ := Option.map_eq_some_iff.mp h
      obtain ⟨hs, htake, hzero, hc⟩ := ih hk
      rw [List.take_succ_cons, List.take_succ_cons, List.drop_succ_cons, List.mem_cons,
        List.mem_cons]
      refine ⟨congrArg (b :: ·) hs, congrArg (b :: ·) htake, ?_, ?_⟩
      · rintro (h0 | h0)
        · exact hb h0.symm
        · exact hzero h0
      · rintro (h0 | h0)
        · exact hbc h0.symm
        · exact hc h0

theorem strchr_eq_none {s : Text} {c : UInt8} (h : strchr s c = none) {l r : Text} (hzero : 0 ∉ l)
    (hc0 : c ≠ 0) (hs : s = l ++ c :: r) : c ∈ l := by
  induction l generalizing s with
  | nil =>
    rw [hs, List.nil_append, strchr, if_neg hc0, if_pos rfl] at h
    cases h
  | cons b l ih =>
    rw [List.mem_cons, not_or] at hzero
    rw [hs, List.cons_append, strchr, if_neg fun hb => hzero.1 hb.symm] at h
    split at h
    next hbc => exact hbc ▸ List.mem_cons_self
    next => exact List.mem_cons_of_mem b (ih (Option.map_eq_none_iff.mp h) hzero.2 rfl)

/-- No whole line is in the text. -/
def NoLine (p : Text) : Prop := ∀ l r, IsLine l → p ≠ l ++ newline :: r

theorem noLine_of_strchr {p : Text} (h : strchr p newline = none) : NoLine p := by
  intro l r hl hp
  exact hl.noNewline (strchr_eq_none h hl.noZero (by decide) hp)

/-- What the inner loop does with the lines in the buffer. -/
structure Printed (pattern p out rest : Text) (ls : List Text) : Prop where
  split : p = unlines ls ++ rest
  isLine : ∀ l ∈ ls, IsLine l
  written : out = unlines (ls.filter (matchPattern pattern))

theorem lines_none {pattern p : Text} (h : strchr p newline = none) :
    lines pattern p = ([], p) := by
  rw [lines]
  split
  · rfl
  next q hq => exact absurd (h.symm.trans hq) (Option.some_ne_none q).symm

theorem lines_some {pattern p : Text} {q : ℕ} (h : strchr p newline = some q) :
    lines pattern p =
      ((if matchPattern pattern (p.take q) then p.take (q + 1) else []) ++
        (lines pattern (p.drop (q + 1))).1, (lines pattern (p.drop (q + 1))).2) := by
  rw [lines]
  split
  next hq => exact absurd (h.symm.trans hq) (Option.some_ne_none q)
  next k hk =>
    obtain rfl := Option.some.inj (h.symm.trans hk)
    rfl

theorem Printed.cons {pattern p out rest : Text} {ls : List Text} {l : Text}
    (h : Printed pattern p out rest ls) (hl : IsLine l) :
    Printed pattern (l ++ newline :: p)
      ((if matchPattern pattern l then l ++ [newline] else []) ++ out) rest (l :: ls) where
  split := by
    rw [h.split, unlines, unlines, List.flatMap_cons, List.append_assoc, List.append_assoc]
    rfl
  isLine := List.forall_mem_cons.mpr ⟨hl, h.isLine⟩
  written := by
    rw [h.written, List.filter_cons]
    split
    · rw [unlines, unlines, List.flatMap_cons]
    · exact List.nil_append _

theorem lines_spec (pattern p : Text) (hlen : p.length < bufSize) :
    strchr (lines pattern p).2 newline = none ∧
      ∃ ls, Printed pattern p (lines pattern p).1 (lines pattern p).2 ls := by
  induction p using lines.induct pattern with
  | case1 p hp =>
    rw [lines_none hp]
    exact ⟨hp, [], rfl, List.forall_mem_nil _, rfl⟩
  | case2 p q hq hlt ih =>
    obtain ⟨hsplit, htake, hzero, hnewline⟩ := strchr_some hq
    obtain ⟨hrest, ls, hls⟩ := ih (by rw [List.length_drop]; omega)
    have hline : IsLine (p.take q) := by
      refine ⟨hzero, hnewline, ?_⟩
      rw [List.length_take]
      omega
    have hcons := hls.cons hline
    rw [← hsplit, ← htake] at hcons
    rw [lines_some hq]
    exact ⟨hrest, _, hcons⟩

theorem Printed.append {pattern p q out out' mid rest : Text} {ls ls' : List Text}
    (h : Printed pattern p out mid ls) (h' : Printed pattern (mid ++ q) out' rest ls') :
    Printed pattern (p ++ q) (out ++ out') rest (ls ++ ls') where
  split := by
    rw [h.split, List.append_assoc, h'.split, unlines, unlines, unlines, List.flatMap_append,
      List.append_assoc]
  isLine := List.forall_mem_append.mpr ⟨h.isLine, h'.isLine⟩
  written := by
    rw [h.written, h'.written, List.filter_append, unlines, unlines, unlines, List.flatMap_append]

theorem Printed.length_le {pattern p out rest : Text} {ls : List Text}
    (h : Printed pattern p out rest ls) : rest.length ≤ p.length := by
  rw [h.split, List.length_append]
  omega

/-- A read that returns nothing is one at the end of the file or into a full buffer. -/
theorem noLine_of_readSize {sizes : ℕ → ℕ} {k : ℕ} {buf input : Text}
    (hn : readSize sizes k (bufSize - buf.length - 1) input = 0)
    (hbuf : strchr buf newline = none) : NoLine (buf ++ input) := by
  intro l r hl hlr
  by_cases hinput : input.length = 0
  · rw [List.length_eq_zero_iff.mp hinput, List.append_nil] at hlr
    exact noLine_of_strchr hbuf l r hl hlr
  · have hfull : bufSize ≤ buf.length + 1 := by
      simp only [readSize] at hn
      omega
    have hprefix : l ++ [newline] <+: buf := by
      have hline : l ++ [newline] <+: buf ++ input := by
        rw [hlr]
        exact ⟨r, by rw [List.append_assoc]; rfl⟩
      apply List.prefix_of_prefix_length_le hline (List.prefix_append _ _)
      have hfits := hl.fits
      rw [List.length_append, List.length_singleton]
      omega
    obtain ⟨t, ht⟩ := hprefix
    rw [List.append_assoc] at ht
    exact noLine_of_strchr hbuf l t hl ht.symm

/-- The output of a run of `grep`. -/
theorem grep_spec (pattern : Text) (sizes : ℕ → ℕ) (k : ℕ) (buf input : Text)
    (hlen : buf.length < bufSize) (hbuf : strchr buf newline = none) :
    ∃ ls rest, Printed pattern (buf ++ input) (grep pattern sizes k buf input) rest ls ∧
      NoLine rest := by
  induction k, buf, input using grep.induct pattern sizes with
  | case1 k buf input n hn =>
    rw [grep]
    rw [if_pos hn]
    exact ⟨[], buf ++ input, ⟨rfl, List.forall_mem_nil _, rfl⟩, noLine_of_readSize hn hbuf⟩
  | case2 k buf input n hn out ih =>
    have hroom : n + buf.length < bufSize := by
      have hle : n ≤ bufSize - buf.length - 1 := (min_le_right _ _).trans (min_le_left _ _)
      omega
    obtain ⟨hrest, ls, hls⟩ := lines_spec pattern (buf ++ input.take n) (by
      rw [List.length_append, List.length_take]
      omega)
    have hle := hls.length_le
    rw [List.length_append, List.length_take] at hle
    obtain ⟨ls', rest, hls', hno⟩ := ih (by
      change (lines pattern (buf ++ input.take n)).2.length < bufSize
      omega) hrest
    have happend := hls.append hls'
    rw [List.append_assoc, List.take_append_drop] at happend
    rw [grep]
    rw [if_neg hn]
    exact ⟨_, rest, happend, hno⟩

/-- However the reads cut the file, `grep` prints those of its lines that are in the language
of the pattern, up to the first that does not fit into the buffer or has a byte 0. -/
theorem grep_prints (pattern : Text) (sizes : ℕ → ℕ) (input : Text) :
    (∃ ls rest, input = unlines ls ++ rest ∧ (∀ l ∈ ls, IsLine l) ∧ NoLine rest ∧
      grep pattern sizes 0 [] input = unlines (ls.filter (matchPattern pattern))) ∧
    ∀ l, matchPattern pattern l = true ↔ l ∈ language pattern := by
  obtain ⟨ls, rest, h, hno⟩ := grep_spec pattern sizes 0 [] input (by decide) rfl
  exact ⟨⟨ls, rest, h.split, h.isLine, hno, h.written⟩, matchPattern_iff pattern⟩

end Zigmaos.Grep
