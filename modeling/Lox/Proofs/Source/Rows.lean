import Lox.Proofs.Disassembly.Listed
import Lox.Proofs.Safety.Fetch
import Lox.Proofs.Source.Reported

namespace Lox

structure Row where
  op : Opcode
  width : Nat
  line : Nat

def Opcode.width? (op : Opcode) : Option Nat :=
  match op.operands with
  | .none => some 0
  | .constant | .byte => some 1
  | .jump _ | .invoke => some 2
  | .closure => none

theorem Opcode.closure_of_width? {op : Opcode} (h : op.width? = Option.none) : op = .closure := by
  cases op <;> first | rfl | cases h

namespace Row

def size (r : Row) : Nat :=
  1 + r.width

def lines (r : Row) : List Nat :=
  List.replicate r.size r.line

end Row

namespace Rows

def size (rows : List Row) : Nat :=
  (rows.map Row.size).sum

@[simp] theorem size_nil : size [] = 0 := rfl

@[simp] theorem size_cons (r : Row) (rows : List Row) : size (r :: rows) = r.size + size rows := rfl

@[simp] theorem size_append (a b : List Row) : size (a ++ b) = size a + size b := by
  simp [size]

theorem length_lines (rows : List Row) : (rows.flatMap Row.lines).length = size rows := by
  induction rows with
  | nil => rfl
  | cons r rows ih => rw [List.flatMap_cons, List.length_append, ih, Row.lines, List.length_replicate, size_cons]

theorem mem_lines {rows : List Row} {l : Nat} (h : l ∈ rows.flatMap Row.lines) : ∃ r ∈ rows, r.line = l := by
  obtain ⟨r, hr, hl⟩ := List.mem_flatMap.mp h
  exact ⟨r, hr, (List.eq_of_mem_replicate hl).symm⟩

theorem sorted_lines {rows : List Row} (h : (rows.map Row.line).Pairwise (· ≤ ·)) :
    (rows.flatMap Row.lines).Pairwise (· ≤ ·) := by
  induction rows with
  | nil => exact .nil
  | cons r rows ih =>
    obtain ⟨hfirst, hrest⟩ := List.pairwise_cons.mp h
    rw [List.flatMap_cons, List.pairwise_append]
    refine ⟨List.pairwise_replicate.mpr (.inr (Nat.le_refl _)), ih hrest, fun l hl k hk => ?_⟩
    obtain ⟨r', hr', rfl⟩ := mem_lines hk
    rw [List.eq_of_mem_replicate hl]
    exact hfirst _ (List.mem_map_of_mem hr')

theorem line_at {before after : List Row} {r : Row} {j : Nat} (hj : j < r.size) :
    ((before ++ r :: after).flatMap Row.lines)[size before + j]? = some r.line := by
  rw [List.flatMap_append, List.flatMap_cons, List.getElem?_append_right (by rw [length_lines]; omega), length_lines,
    Nat.add_sub_cancel_left, List.getElem?_append_left (by rwa [Row.lines, List.length_replicate]), Row.lines,
    List.getElem?_replicate, if_pos hj]

theorem apart {before after before' after' : List Row} {r r' : Row}
    (h : before ++ r :: after = before' ++ r' :: after') :
    before = before' ∧ r = r' ∨ size before + r.size ≤ size before' ∨ size before' + r'.size ≤ size before := by
  rcases List.append_eq_append_iff.mp h with ⟨mid, rfl, hmid⟩ | ⟨mid, rfl, hmid⟩
  · cases mid with
    | nil =>
      cases hmid
      exact .inl ⟨(List.append_nil _).symm, rfl⟩
    | cons u mid =>
      cases hmid
      refine .inr (.inl ?_)
      rw [size_append, size_cons]
      omega
  · cases mid with
    | nil =>
      cases hmid
      exact .inl ⟨List.append_nil _, rfl⟩
    | cons u mid =>
      cases hmid
      refine .inr (.inr ?_)
      rw [size_append, size_cons]
      omega

def Place (rows : List Row) (n : Nat) : Prop :=
  ∃ before r after, rows = before ++ r :: after ∧ r.op.width? = some 2 ∧ r.width = 2 ∧ n = size before + 1

theorem Place.append {rows : List Row} {n : Nat} (h : Place rows n) (more : List Row) : Place (rows ++ more) n := by
  obtain ⟨before, r, after, rfl, hop, hwidth, hn⟩ := h
  exact ⟨before, r, after ++ more, by simp, hop, hwidth, hn⟩

theorem Place.lt {rows : List Row} {n : Nat} (h : Place rows n) : n + 1 < size rows := by
  obtain ⟨before, r, after, rfl, -, hwidth, rfl⟩ := h
  rw [size_append, size_cons, Row.size, hwidth]
  omega

end Rows

structure Row.Fits (p : Prototype) (offset : Nat) (r : Row) : Prop where
  op : p.code[offset]? = some r.op.toByte
  width : ∀ n, r.op.width? = some n → r.width = n
  closure : r.op = .closure → ∃ (k : UInt8) (q : Prototype), p.code[offset + 1]? = some k ∧
    p.constants[k.toNat]? = some (.function q) ∧ r.width = 1 + 2 * q.captures

namespace Template

structure Laid (p : Prototype) (rows : List Row) : Prop where
  lines : p.lines = rows.flatMap Row.lines
  code : p.code.length = Rows.size rows
  fits : ∀ before r after, rows = before ++ r :: after → r.Fits p (Rows.size before)

inductive Ruled (last : Nat) : Prototype → Prop
  | intro {p : Prototype} (rows : List Row) : p.Laid rows → (rows.map Row.line).Pairwise (· ≤ ·) →
      (∀ r ∈ rows, 1 ≤ r.line ∧ r.line ≤ last) →
      (∀ (k : Nat) q, p.constants[k]? = some (.function q) → Ruled last q) → Ruled last p

/-- Every byte of the code has a line of the text, the lines never go back, and all bytes of an instruction have the
same one. -/
structure Tabled (last : Nat) (p : Prototype) : Prop where
  length : p.lines.length = p.code.length
  sorted : p.lines.Pairwise (· ≤ ·)
  bounds : ∀ l ∈ p.lines, 1 ≤ l ∧ l ≤ last
  lined : p.Lined

end Template

section

variable {p p' q : Prototype} {rows : List Row} {last : Nat}

theorem Row.Fits.mono {r : Row} {offset : Nat} (h : r.Fits p offset) (hcode : p.code <+: p'.code)
    (hconstants : p.constants <+: p'.constants) : r.Fits p' offset := by
  obtain ⟨more, hcode⟩ := hcode
  obtain ⟨constants, hconstants⟩ := hconstants
  have hold {i : Nat} {b : UInt8} (hb : p.code[i]? = some b) : p'.code[i]? = some b := by
    rw [← hcode, List.getElem?_append_left (List.getElem?_eq_some_iff.mp hb).1, hb]
  refine ⟨hold h.op, h.width, fun hop => ?_⟩
  obtain ⟨k, q, hk, hq, hwidth⟩ := h.closure hop
  refine ⟨k, q, hold hk, ?_, hwidth⟩
  rw [← hconstants, List.getElem?_append_left (List.getElem?_eq_some_iff.mp hq).1, hq]

namespace Template

theorem laid_new : ({} : Prototype).Laid [] :=
  ⟨rfl, rfl, fun before r after h => by simp at h⟩

theorem Laid.emit (h : p.Laid rows) {op : Opcode} {bytes : List UInt8} {line : Nat}
    (hwidth : ∀ n, op.width? = some n → bytes.length = n)
    (hclosure : op = .closure → ∃ (k : UInt8) (q : Prototype), bytes[0]? = some k ∧
      p.constants[k.toNat]? = some (.function q) ∧ bytes.length = 1 + 2 * q.captures) :
    ({ p with
      code := p.code ++ op.toByte :: bytes
      lines := p.lines ++ List.replicate (1 + bytes.length) line } : Prototype).Laid
        (rows ++ [⟨op, bytes.length, line⟩]) where
  lines := by
    rw [List.flatMap_append, ← h.lines]
    simp [Row.lines, Row.size]
  code := by
    rw [Rows.size_append, ← h.code, List.length_append]
    simp [Row.size, Nat.add_comm]
  fits before r after hrows := by
    rcases List.eq_nil_or_concat after with rfl | ⟨after, last, rfl⟩
    · obtain ⟨rfl, hr⟩ := List.append_inj' hrows rfl
      cases hr
      refine ⟨?_, hwidth, fun hop => ?_⟩
      · rw [← h.code, List.getElem?_append_right (Nat.le_refl _), Nat.sub_self]
        rfl
      · obtain ⟨k, q, hk, hq, hlength⟩ := hclosure hop
        refine ⟨k, q, ?_, hq, hlength⟩
        rw [← h.code, List.getElem?_append_right (Nat.le_succ _), Nat.succ_sub (Nat.le_refl _), Nat.sub_self,
          List.getElem?_cons_succ, hk]
    · have hrows' : rows ++ [⟨op, bytes.length, line⟩] = (before ++ r :: after) ++ [last] := by
        rw [hrows]
        simp
      obtain ⟨hsame, -⟩ := List.append_inj' hrows' rfl
      exact (h.fits before r after hsame).mono (List.prefix_append ..) (List.prefix_rfl)

theorem Laid.addConstant (h : p.Laid rows) (k : Literal) : (p.addConstant k).Laid rows where
  lines := h.lines
  code := h.code
  fits before r after hrows := (h.fits before r after hrows).mono List.prefix_rfl (List.prefix_append ..)

theorem Laid.patch (h : p.Laid rows) {n : Nat} (hn : Rows.Place rows n) (a b : UInt8) :
    ({ p with code := (p.code.set n a).set (n + 1) b } : Prototype).Laid rows where
  lines := h.lines
  code := by
    rw [List.length_set, List.length_set]
    exact h.code
  fits before r after hrows := by
    obtain ⟨before', r', after', hrows', hop, hwidth, rfl⟩ := hn
    have hfits := h.fits before r after hrows
    -- no instruction begins at the distance, and it is not in the operand of a closure
    have hother {i : Nat} (hne : i ≠ Rows.size before' + 1) (hne' : i ≠ Rows.size before' + 1 + 1) :
        ((p.code.set (Rows.size before' + 1) a).set (Rows.size before' + 1 + 1) b)[i]? = p.code[i]? := by
      rw [List.getElem?_set_ne hne'.symm, List.getElem?_set_ne hne.symm]
    have hsize' : r'.size = 3 := by
      rw [Row.size, hwidth]
    have happart := Rows.apart (hrows'.symm.trans hrows)
    refine ⟨?_, hfits.width, fun hclosure => ?_⟩
    · refine (hother ?_ ?_).trans hfits.op <;>
        rcases happart with ⟨rfl, rfl⟩ | hbehind | hbefore <;> unfold Row.size at * <;> omega
    · obtain ⟨k, q, hk, hq, hlength⟩ := hfits.closure hclosure
      refine ⟨k, q, (hother ?_ ?_).trans hk, hq, hlength⟩ <;>
        rcases happart with ⟨rfl, rfl⟩ | hbehind | hbefore <;>
          first
            | (rw [hclosure] at hop; cases hop)
            | omega
            | (unfold Row.size at hbefore; omega)

end Template

theorem Operand.size_of_width? {constants : List Literal} {op : Opcode} {bytes : List UInt8} {operand : Operand}
    {n : Nat}
    (h : Operand.read? constants op bytes = some operand) (hn : op.width? = some n) : operand.size = n := by
  unfold Operand.read? at h
  unfold Opcode.width? at hn
  split at h
  case h_6 hop => rw [hop] at hn; cases hn
  case h_7 => cases h
  all_goals
    rename_i hop
    rw [hop] at hn
    cases hn
    cases h
    rfl

theorem Row.Fits.decoded {r : Row} {offset : Nat} {op : Opcode} {operand : Operand} (h : r.Fits p offset)
    (hi : p.instrAt offset = some (op, operand)) : op = r.op ∧ operand.size = r.width := by
  obtain ⟨b, rest, hdrop, hop, hread⟩ := Template.instrAt_some hi
  obtain ⟨hb, hrest⟩ := Template.getElem?_of_drop hdrop
  rw [h.op] at hb
  cases hb
  rw [Opcode.ofByte?_toByte] at hop
  cases hop
  refine ⟨rfl, ?_⟩
  cases hwidth : r.op.width? with
  | some n =>
    rw [h.width n hwidth]
    exact Operand.size_of_width? hread hwidth
  | none =>
    have hclosure := Opcode.closure_of_width? hwidth
    obtain ⟨k, q, hk, hq, hsize⟩ := h.closure hclosure
    obtain _ | ⟨k', bytes⟩ := rest
    · rw [hclosure] at hread
      cases hread
    obtain rfl : k' = k := Option.some.inj ((hrest 0).symm.trans hk)
    rw [hclosure] at hread
    simp only [Operand.read?, Opcode.operands, hq, Option.map_eq_map] at hread
    obtain ⟨origins, horigins, rfl⟩ := Option.map_eq_some_iff.mp hread
    rw [Operand.size, (Origin.length_read? horigins).1, hsize]

namespace Template

theorem Laid.starts (h : p.Laid rows) {offset : Nat} (hs : p.Starts offset) :
    ∃ before after, rows = before ++ after ∧ offset = Rows.size before := by
  induction hs with
  | first => exact ⟨[], rows, rfl, rfl⟩
  | @next offset op operand hs hi ih =>
    obtain ⟨before, after, rfl, rfl⟩ := ih
    cases after with
    | nil =>
      have hend := h.code
      rw [List.append_nil] at hend
      rw [instrAt, List.drop_eq_nil_of_le (Nat.le_of_eq hend)] at hi
      cases hi
    | cons r after =>
      obtain ⟨-, hsize⟩ := (h.fits before r after rfl).decoded hi
      refine ⟨before ++ [r], after, by simp, ?_⟩
      rw [hsize, Rows.size_append, Rows.size_cons, Rows.size_nil, Row.size]
      omega

theorem Ruled.lined (h : p.Ruled last) : p.Lined := by
  cases h with
  | intro rows hlaid hsorted hbounds hinner =>
    intro offset op operand hs hi j hj
    obtain ⟨before, after, rfl, rfl⟩ := hlaid.starts hs
    cases after with
    | nil =>
      have hend := hlaid.code
      rw [List.append_nil] at hend
      rw [instrAt, List.drop_eq_nil_of_le (Nat.le_of_eq hend)] at hi
      cases hi
    | cons r after =>
      obtain ⟨-, hsize⟩ := (hlaid.fits before r after rfl).decoded hi
      have hr : r.size = 1 + operand.size := by rw [hsize, Row.size]
      rw [hlaid.lines, Rows.line_at (hr ▸ hj), show Rows.size before = Rows.size before + 0 from rfl,
        Rows.line_at (by rw [hr]; omega)]

theorem Ruled.tabled (h : p.Ruled last) : p.Tabled last := by
  have hlined := h.lined
  cases h with
  | intro rows hlaid hsorted hbounds hinner =>
    refine ⟨?_, ?_, fun l hl => ?_, hlined⟩
    · rw [hlaid.lines, Rows.length_lines, hlaid.code]
    · rw [hlaid.lines]
      exact Rows.sorted_lines hsorted
    · rw [hlaid.lines] at hl
      obtain ⟨r, hr, rfl⟩ := Rows.mem_lines hl
      exact hbounds r hr

theorem Ruled.part (h : p.Ruled last) (hq : Part p q) : q.Ruled last := by
  induction hq with
  | self => exact h
  | constant _ hk ih =>
    cases ih with
    | intro rows hlaid hsorted hbounds hinner => exact hinner _ _ hk

end Template

end

end Lox
