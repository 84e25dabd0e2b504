import Lox.Disassembly
import Lox.Proofs.Disassembly.Functions
import Lox.Proofs.Verify.WellFormed

/-!
Listings of well-formed functions: every instruction has one, and they follow each other as the
instructions do.
-/

namespace Lox

open Heap HeapView

namespace Template

variable {p : Prototype} {offset : Nat} {op : Opcode} {operand : Operand}

theorem instrAt_some (h : p.instrAt offset = some (op, operand)) : ∃ b rest, p.code.drop offset = b :: rest ∧
    Opcode.ofByte? b = some op ∧ Operand.read? p.constants op rest = some operand := by
  unfold instrAt at h
  split at h
  · cases h
  · rename_i b rest hdrop
    obtain ⟨op', hop, h⟩ := Option.bind_eq_some_iff.mp h
    obtain ⟨operand', hoperand, h⟩ := Option.bind_eq_some_iff.mp h
    cases h
    exact ⟨b, rest, hdrop, hop, hoperand⟩

theorem getElem?_of_drop {b : UInt8} {rest : List UInt8} (h : p.code.drop offset = b :: rest) :
    p.code[offset]? = some b ∧ ∀ i, p.code[offset + 1 + i]? = rest[i]? := by
  constructor
  · have : (p.code.drop offset)[0]? = p.code[offset + 0]? := List.getElem?_drop
    rw [h] at this
    exact this.symm
  · intro i
    have : (p.code.drop offset)[i + 1]? = p.code[offset + (i + 1)]? := List.getElem?_drop
    rw [h, List.getElem?_cons_succ] at this
    rw [this]
    congr 1
    omega

end Template

theorem Origin.length_read? {n : Nat} {bytes : List UInt8} {origins : List Origin}
    (h : Origin.read? n bytes = some origins) : origins.length = n ∧ 2 * n ≤ bytes.length := by
  induction n generalizing bytes origins with
  | zero =>
    cases h
    exact ⟨rfl, Nat.zero_le _⟩
  | succ n ih =>
    match bytes with
    | [] | [_] => cases h
    | flag :: index :: rest =>
      unfold Origin.read? at h
      split at h
      · obtain ⟨origins', horigins, rfl⟩ := Option.map_eq_some_iff.mp h
        obtain ⟨hlength, hle⟩ := ih horigins
        simp only [List.length_cons, hlength, true_and]
        omega
      · cases h

namespace Heap

variable {h : Heap} {w : World} {objects : List (Obj Routine)} {upvalues : List Captured}

theorem Pictures.formatConstant (hp : Pictures w objects upvalues h) {v : Value} {c : Literal}
    (hv : h.ShowsConstant w v c) : ∃ text, HeapView.formatValue v h = .ok text := by
  have hobject {l : Loc} {o : Object} (hn : h.Names v l) (ho : h.objects[l]? = some o)
      (hbody : (∃ chars hash, o.body = .string chars hash) ∨ ∃ f, o.body = .function f) :
      ∃ text, HeapView.formatValue v h = .ok text := by
    unfold HeapView.formatValue
    rw [Value.isNumber_of_isObject hn.isObject]
    simp only [Bool.false_eq_true, if_false, hn.isObject, if_true]
    have hformat : ∃ text, HeapView.formatObject l h = .ok text := by
      unfold HeapView.formatObject
      rw [view_bind, object_eq_ok.mpr ho]
      dsimp only
      rcases hbody with ⟨chars, hash, hbody⟩ | ⟨f, hbody⟩
      · rw [hbody]
        exact ⟨_, rfl⟩
      · rw [hbody]
        exact ⟨_, rfl⟩
    obtain ⟨text, hformat⟩ := hformat
    split
    · exact ⟨_, rfl⟩
    · split
      · exact ⟨_, rfl⟩
      · split
        · exact ⟨_, rfl⟩
        · exact ⟨text, by rw [view_bind, hn.locOfValue]; exact hformat⟩
  cases c with
  | number u =>
    unfold HeapView.formatValue
    rw [hv.2.isNumber]
    exact ⟨_, rfl⟩
  | string chars =>
    obtain ⟨l, hash, hn, o, ho, -, hbody⟩ := hv
    exact hobject hn ho (.inl ⟨_, _, hbody⟩)
  | function p =>
    obtain ⟨l, hn, hw⟩ := hv
    obtain ⟨f, hf, -⟩ := hp.function (hn.alive hp.sound.consistent) hw
    obtain ⟨o, ho, hbody⟩ := functionAt_eq_ok.mp hf
    exact hobject hn ho (.inr ⟨_, hbody⟩)

end Heap

/-- The function of a heap with the prototype that it is for and the listing of that. -/
structure Heap.Lists (h : Heap) (w : World) (fn : Function) (q : Prototype) (g : Listing Item) : Prop where
  shows : h.ShowsFunction w fn q
  made : Item.Made (.function g) (.function q)
  verified : g.Verified

namespace Heap.Lists

variable {h : Heap} {w : World} {objects : List (Obj Routine)} {upvalues : List Captured} {fn : Function}
  {q : Prototype} {g : Listing Item} {offset : Nat} {op : Opcode} {operand : Operand}

theorem wellFormed (hl : h.Lists w fn q g) : WellFormed g q :=
  (hl.verified.wellFormed hl.made .self).1

theorem codeByte (hl : h.Lists w fn q g) {b : UInt8} (hb : q.code[offset]? = some b) :
    HeapView.codeByte fn.chunk offset h = .ok b := by
  unfold HeapView.codeByte
  rw [Growable.get?_eq, hl.shows.code, hb]
  rfl

theorem constantAt (hl : h.Lists w fn q g) {k : Nat} {c : Literal} (hc : q.constants[k]? = some c) :
    ∃ v, HeapView.constantAt fn.chunk k h = .ok v ∧ fn.chunk.constants.get? k = some v ∧
      h.ShowsConstant w v c := by
  obtain ⟨v, hv, hshows⟩ := forall₂_getElem? hl.shows.constants hc
  refine ⟨v, ?_, ?_, hshows⟩
  · unfold HeapView.constantAt
    rw [Growable.get?_eq, hv]
    rfl
  · rw [Growable.get?_eq, hv]

theorem lineAt (hl : h.Lists w fn q g) (hlt : offset < q.code.length) :
    ∃ n, HeapView.lineAt fn.chunk offset h = .ok n := by
  have hlines : q.lines.length = q.code.length := by
    obtain ⟨-, hmade, -⟩ := hl
    cases hmade
    assumption
  have hsize : offset < fn.chunk.lines.toList.length := by
    rw [hl.shows.lines, List.length_map, hlines]
    exact hlt
  unfold HeapView.lineAt
  rw [Growable.get?_eq, List.getElem?_eq_getElem hsize]
  exact ⟨_, rfl⟩

theorem margin (hl : h.Lists w fn q g) (hlt : offset < q.code.length) :
    ∃ margin, listingMargin fn.chunk offset h = .ok margin := by
  obtain ⟨n, hn⟩ := hl.lineAt hlt
  obtain ⟨n', hn'⟩ := hl.lineAt (show offset - 1 < q.code.length by omega)
  unfold listingMargin
  rw [view_bind, hn]
  dsimp only
  by_cases hpos : 0 < offset
  · rw [if_pos hpos, view_bind, hn']
    dsimp only
    rw [view_bind, view_pure]
    dsimp only
    split <;> exact ⟨_, rfl⟩
  · rw [if_neg hpos, view_bind]
    dsimp only [view_pure]
    split <;> exact ⟨_, rfl⟩

theorem captures (hl : h.Lists w fn q g) {n : Nat} (hle : offset + 2 * n ≤ q.code.length) :
    ∃ lines, listCaptures fn.chunk offset n h = .ok lines := by
  induction n generalizing offset with
  | zero => exact ⟨[], rfl⟩
  | succ n ih =>
    have hkind := hl.codeByte (List.getElem?_eq_getElem (show offset < q.code.length by omega))
    have hindex := hl.codeByte (List.getElem?_eq_getElem (show offset + 1 < q.code.length by omega))
    obtain ⟨lines, hlines⟩ := ih (show offset + 2 + 2 * n ≤ q.code.length by omega)
    unfold listCaptures
    rw [view_bind, hkind]
    dsimp only
    rw [view_bind, hindex]
    dsimp only
    rw [view_bind, hlines]
    exact ⟨_, rfl⟩

theorem loop_le (hl : h.Lists w fn q g) {distance : Nat} (hs : q.Starts offset)
    (hinstr : q.instrAt offset = some (.loop, .short distance)) : distance ≤ offset + 3 := by
  obtain ⟨-, hmade, hsupers, ⟨a, hlines, hfits⟩, -⟩ := hl
  have hc : Certified g q a := ⟨hlines, hsupers, hfits, hmade⟩
  obtain ⟨before, s, after, ha, rfl, -⟩ := hc.row hs hinstr
  obtain ⟨next, hgoes, -⟩ := hc.goes ha
  cases hgoes with
  | loop hle => exact hle
  | effect he => cases he

def target (op : Opcode) (offset distance : Nat) : Int :=
  if op = .loop then offset + 3 - distance else offset + 3 + distance

structure IsLine (op : Opcode) (operand : Operand) (offset : Nat) (line : Bytes) : Prop where
  names : ∃ margin rest, line = margin ++ (Bytes.ofString op.mnemonic ++ rest)
  target : ∀ distance, operand = .short distance →
    ∃ start, line = start ++ (" -> " : Bytes) ++ Bytes.ofInt (target op offset distance) ++ ("\n" : Bytes)

theorem names_column (op : Opcode) (margin tail : Bytes) : ∃ margin' rest,
    margin ++ (mnemonicColumn op ++ tail) = margin' ++ (Bytes.ofString op.mnemonic ++ rest) := by
  refine ⟨margin, List.replicate (16 - (Bytes.ofString op.mnemonic).length) 32 ++ ((" " : Bytes) ++ tail), ?_⟩
  simp only [mnemonicColumn, Bytes.padRight, List.append_assoc]

theorem IsLine.column {margin tail : Bytes} (hoperand : ∀ distance, operand ≠ .short distance) :
    IsLine op operand offset (margin ++ (mnemonicColumn op ++ tail)) where
  names := names_column op margin tail
  target distance hd := absurd hd (hoperand distance)

theorem constant (hp : Pictures w objects upvalues h) (hl : h.Lists w fn q g) {k : Nat}
    (hk : k < q.constants.length) : ∃ v text, HeapView.constantAt fn.chunk k h = .ok v ∧
      HeapView.formatValue v h = .ok text := by
  obtain ⟨v, hv, -, hshows⟩ := hl.constantAt (List.getElem?_eq_getElem hk)
  obtain ⟨text, htext⟩ := hp.formatConstant hshows
  exact ⟨v, text, hv, htext⟩

theorem constant_lt (hl : h.Lists w fn q g) (hs : q.Starts offset) (hinstr : q.instrAt offset = some (op, operand))
    (hop : op.operands = .constant ∨ op.operands = .invoke) {k : Nat} (hk : operand.constant? = some k) :
    k < q.constants.length := by
  have hnames := hl.wellFormed.names offset op operand hs hinstr
  have hcases : op = .constant ∨ op.isNamed = true := by
    cases op <;> simp [Opcode.operands, Opcode.isNamed] at hop ⊢
  rcases hcases with hconstant | hnamed
  · obtain ⟨k', rfl, ⟨v, hv⟩ | ⟨chars, hv⟩⟩ := hnames.constant hconstant
    all_goals
      cases hk
      exact (List.getElem?_eq_some_iff.mp hv).1
  · obtain ⟨k', chars, hk', hv⟩ := hnames.name hnamed
    rw [hk] at hk'
    cases hk'
    exact (List.getElem?_eq_some_iff.mp hv).1

/-- The text that lists the operands of an instruction, and the place after them. -/
def Shown (h : Heap) (fn : Function) (q : Prototype) (op : Opcode) (operand : Operand) (margin : Bytes)
    (offset : Nat) : Prop :=
  offset + (1 + operand.size) ≤ q.code.length ∧
    ∃ line, HeapView.listOperands fn.chunk offset margin op h = .ok (line, offset + (1 + operand.size)) ∧
      IsLine op operand offset line

structure Follow (q : Prototype) (offset : Nat) (rest : List UInt8) : Prop where
  length : q.code.length = offset + 1 + rest.length
  bytes : ∀ i, q.code[offset + 1 + i]? = rest[i]?

section

variable {margin : Bytes} {k n hi lo : UInt8} {rest : List UInt8}

theorem shown_none (hrest : Follow q offset rest) (hoperands : op.operands = .none) :
    Shown h fn q op .none margin offset := by
  unfold Shown HeapView.listOperands
  rw [hoperands]
  refine ⟨?_, _, rfl, ⟨⟨margin, ("\n" : Bytes), List.append_assoc ..⟩, by rintro _ ⟨⟩⟩⟩
  simp only [Operand.size, hrest.length]
  omega

theorem shown_constant (hp : Pictures w objects upvalues h) (hl : h.Lists w fn q g)
    (hrest : Follow q offset (k :: rest)) (hoperands : op.operands = .constant)
    (hk : k.toNat < q.constants.length) : Shown h fn q op (.byte k.toNat) margin offset := by
  obtain ⟨v, text, hv, htext⟩ := hl.constant hp hk
  unfold Shown HeapView.listOperands
  rw [hoperands]
  dsimp only
  rw [view_bind, hl.codeByte (hrest.bytes 0)]
  dsimp only
  rw [view_bind, hv]
  dsimp only
  rw [view_bind, htext]
  refine ⟨by simp only [Operand.size, hrest.length, List.length_cons]; omega, _, rfl, ?_⟩
  simp only [List.append_assoc]
  exact .column (by rintro _ ⟨⟩)

theorem shown_byte (hl : h.Lists w fn q g) (hrest : Follow q offset (k :: rest))
    (hoperands : op.operands = .byte) : Shown h fn q op (.byte k.toNat) margin offset := by
  unfold Shown HeapView.listOperands
  rw [hoperands]
  dsimp only
  rw [view_bind, hl.codeByte (hrest.bytes 0)]
  refine ⟨by simp only [Operand.size, hrest.length, List.length_cons]; omega, _, rfl, ?_⟩
  simp only [List.append_assoc]
  exact .column (by rintro _ ⟨⟩)

theorem shown_jump (hl : h.Lists w fn q g) {backward : Bool} (hrest : Follow q offset (hi :: lo :: rest))
    (hoperands : op.operands = .jump backward) :
    Shown h fn q op (.short (hi.toNat * 256 + lo.toNat)) margin offset := by
  unfold Shown HeapView.listOperands
  rw [hoperands]
  dsimp only
  rw [view_bind, hl.codeByte (hrest.bytes 0)]
  dsimp only
  rw [view_bind, hl.codeByte (hrest.bytes 1)]
  refine ⟨by simp only [Operand.size, hrest.length, List.length_cons]; omega, _, rfl, ?_, ?_⟩
  · simp only [List.append_assoc]
    exact names_column ..
  · intro distance hd
    cases hd
    have htarget : (if backward then (offset : Int) + 3 - ↑(hi.toNat * 256 + lo.toNat)
        else offset + 3 + ↑(hi.toNat * 256 + lo.toNat)) = target op offset (hi.toNat * 256 + lo.toNat) := by
      unfold target
      cases op <;> cases hoperands <;> rfl
    exact ⟨margin ++ mnemonicColumn op ++ numberColumn offset, by rw [← htarget]⟩

theorem shown_invoke (hp : Pictures w objects upvalues h) (hl : h.Lists w fn q g)
    (hrest : Follow q offset (k :: n :: rest)) (hoperands : op.operands = .invoke)
    (hk : k.toNat < q.constants.length) : Shown h fn q op (.pair k.toNat n.toNat) margin offset := by
  obtain ⟨v, text, hv, htext⟩ := hl.constant hp hk
  unfold Shown HeapView.listOperands
  rw [hoperands]
  dsimp only
  rw [view_bind, hl.codeByte (hrest.bytes 0)]
  dsimp only
  rw [view_bind, hl.codeByte (hrest.bytes 1)]
  dsimp only
  rw [view_bind, hv]
  dsimp only
  rw [view_bind, htext]
  refine ⟨by simp only [Operand.size, hrest.length, List.length_cons]; omega, _, rfl, ?_⟩
  simp only [List.append_assoc]
  exact .column (by rintro _ ⟨⟩)

theorem shown_closure (hp : Pictures w objects upvalues h) (hl : h.Lists w fn q g)
    (hrest : Follow q offset (k :: rest)) (hoperands : op.operands = .closure) {q' : Prototype}
    {origins : List Origin} (hconstant : q.constants[k.toNat]? = some (.function q'))
    (horigins : Origin.read? q'.captures rest = some origins) :
    Shown h fn q op (.closure k.toNat origins) margin offset := by
  obtain ⟨hcount, hle⟩ := Origin.length_read? horigins
  obtain ⟨v, hv, -, hshows⟩ := hl.constantAt hconstant
  obtain ⟨text, htext⟩ := hp.formatConstant hshows
  obtain ⟨j, hn, hw⟩ := hshows
  obtain ⟨fn', hfn', hshows', -⟩ := hp.function (hn.alive hp.sound.consistent) hw
  have hcaptured : fn'.upvalueCount.toNat = origins.length := by
    rw [hshows'.captures, hcount]
    rfl
  have hcaptures : offset + 2 + 2 * origins.length ≤ q.code.length := by
    rw [hrest.length, hcount, List.length_cons]
    omega
  obtain ⟨lines, hlines⟩ := hl.captures hcaptures
  have hnext : offset + (1 + (Operand.closure k.toNat origins).size) = offset + 2 + 2 * origins.length := by
    simp only [Operand.size]
    omega
  unfold Shown HeapView.listOperands
  rw [hoperands]
  dsimp only
  rw [view_bind, hl.codeByte (hrest.bytes 0)]
  dsimp only
  rw [view_bind, hv]
  dsimp only
  rw [view_bind, htext]
  dsimp only
  rw [view_bind, hn.locOfValue]
  dsimp only
  rw [view_bind, hfn']
  dsimp only
  rw [hcaptured, view_bind, hlines, hnext]
  refine ⟨hcaptures, _, rfl, ?_⟩
  simp only [List.append_assoc]
  exact .column (by rintro _ ⟨⟩)

theorem shown (hp : Pictures w objects upvalues h) (hl : h.Lists w fn q g) (hs : q.Starts offset)
    (hinstr : q.instrAt offset = some (op, operand)) (hrest : Follow q offset rest)
    (hread : Operand.read? q.constants op rest = some operand) : Shown h fn q op operand margin offset := by
  unfold Operand.read? at hread
  cases hoperands : op.operands with
  | none =>
    rw [hoperands] at hread
    cases hread
    exact shown_none hrest hoperands
  | constant =>
    rw [hoperands] at hread
    cases rest with
    | nil => cases hread
    | cons k rest =>
      cases hread
      exact shown_constant hp hl hrest hoperands (hl.constant_lt hs hinstr (.inl hoperands) rfl)
  | byte =>
    rw [hoperands] at hread
    cases rest with
    | nil => cases hread
    | cons k rest =>
      cases hread
      exact shown_byte hl hrest hoperands
  | jump backward =>
    rw [hoperands] at hread
    match rest, hread with
    | hi :: lo :: rest, hread =>
      cases hread
      exact shown_jump hl hrest hoperands
  | invoke =>
    rw [hoperands] at hread
    match rest, hread with
    | k :: n :: rest, hread =>
      cases hread
      exact shown_invoke hp hl hrest hoperands (hl.constant_lt hs hinstr (.inr hoperands) rfl)
  | closure =>
    rw [hoperands] at hread
    cases rest with
    | nil => cases hread
    | cons k rest =>
      dsimp only at hread
      cases hconstant : q.constants[k.toNat]? with
      | none =>
        rw [hconstant] at hread
        cases hread
      | some c =>
        rw [hconstant] at hread
        cases c with
        | number | string => cases hread
        | function q' =>
          obtain ⟨origins, horigins, rfl⟩ := Option.map_eq_some_iff.mp hread
          exact shown_closure hp hl hrest hoperands hconstant horigins

end

theorem listInstruction (hp : Pictures w objects upvalues h) (hl : h.Lists w fn q g) (hs : q.Starts offset)
    (hinstr : q.instrAt offset = some (op, operand)) : offset + (1 + operand.size) ≤ q.code.length ∧
      ∃ line, HeapView.listInstruction fn.chunk offset h = .ok (line, offset + (1 + operand.size)) ∧
        IsLine op operand offset line := by
  obtain ⟨b, rest, hdrop, hop, hread⟩ := Template.instrAt_some hinstr
  obtain ⟨hfirst, hbytes⟩ := Template.getElem?_of_drop hdrop
  have hlength : q.code.length = offset + 1 + rest.length := by
    have := congrArg List.length hdrop
    rw [List.length_drop, List.length_cons] at this
    omega
  obtain ⟨margin, hmargin⟩ := hl.margin (show offset < q.code.length by omega)
  unfold HeapView.listInstruction
  rw [view_bind, hmargin]
  dsimp only
  rw [view_bind, hl.codeByte hfirst]
  dsimp only
  rw [hop]
  exact shown hp hl hs hinstr ⟨hlength, hbytes⟩ hread

inductive Walk (h : Heap) (fn : Function) (q : Prototype) : Nat → List Bytes → Prop
  | stop : Walk h fn q q.code.length []
  | next {offset : Nat} {op : Opcode} {operand : Operand} {line : Bytes} {lines : List Bytes} :
      q.instrAt offset = some (op, operand) →
      HeapView.listInstruction fn.chunk offset h = .ok (line, offset + (1 + operand.size)) →
      IsLine op operand offset line → Walk h fn q (offset + (1 + operand.size)) lines →
      Walk h fn q offset (line :: lines)

theorem listFrom (hp : Pictures w objects upvalues h) (hl : h.Lists w fn q g) (found : List Bytes) {fuel : Nat}
    (hs : q.Starts offset) (hle : offset ≤ q.code.length) (hfuel : q.code.length ≤ offset + fuel) :
    ∃ lines, HeapView.listFrom fn.chunk found offset fuel h = .ok (found.reverse ++ lines) ∧
      Walk h fn q offset lines := by
  induction fuel generalizing found offset with
  | zero =>
    obtain rfl : offset = q.code.length := by omega
    refine ⟨[], ?_, .stop⟩
    rw [List.append_nil]
    rfl
  | succ fuel ih =>
    have hsize : fn.chunk.code.size = q.code.length := by
      rw [← Growable.length_toList, hl.shows.code]
    unfold HeapView.listFrom
    by_cases hlt : offset < fn.chunk.code.size
    · rw [if_pos hlt]
      rw [hsize] at hlt
      obtain ⟨op, operand, hinstr⟩ := hl.wellFormed.instructions offset hs hlt
      obtain ⟨hle', line, hline, hisline⟩ := hl.listInstruction hp hs hinstr
      obtain ⟨lines, hlines, hwalk⟩ := ih (line :: found) (hs.next hinstr) hle' (by omega)
      refine ⟨line :: lines, ?_, .next hinstr hline hisline hwalk⟩
      rw [view_bind, hline]
      dsimp only
      rw [hlines, List.reverse_cons, List.append_assoc]
      rfl
    · rw [if_neg hlt]
      rw [hsize] at hlt
      obtain rfl : offset = q.code.length := by omega
      refine ⟨[], ?_, .stop⟩
      rw [List.append_nil]
      rfl

def IsSection (h : Heap) (fn : Function) (q : Prototype) (text : Bytes) : Prop :=
  ∃ lines, text = ("== " : Bytes) ++ q.name.getD ("<script>" : Bytes) ++ (" ==\n" : Bytes) ++ lines.flatten ∧
    Walk h fn q 0 lines

theorem listChunk (hp : Pictures w objects upvalues h) (hl : h.Lists w fn q g) : ∃ text,
    HeapView.listChunk fn.chunk (q.name.getD ("<script>" : Bytes)) h = .ok text ∧ IsSection h fn q text := by
  have hsize : fn.chunk.code.size = q.code.length := by
    rw [← Growable.length_toList, hl.shows.code]
  obtain ⟨lines, hlines, hwalk⟩ := hl.listFrom hp [] .first (Nat.zero_le _)
    (show q.code.length ≤ 0 + fn.chunk.code.size by omega)
  refine ⟨_, ?_, lines, rfl, hwalk⟩
  unfold HeapView.listChunk
  rw [view_bind, hlines]
  rfl

end Heap.Lists

namespace Heap

variable {h : Heap} {w : World} {objects : List (Obj Routine)} {upvalues : List Captured}

def Holds (h : Heap) (w : World) (root k : Loc) (g : Listing Item) : Prop :=
  ∃ fn q, functionAt k h = .ok fn ∧ h.FunctionIn root k fn ∧ h.Lists w fn q g

def functionsAt (inner : Loc → HeapView (List Loc)) (v : Value) : HeapView (List Loc) := do
  if ← HeapView.ofKind v .function then inner (← HeapView.locOfValue v) else return []

theorem functionsAt_number (inner : Loc → HeapView (List Loc)) {v u : Value}
    (hv : h.ShowsConstant w v (.number u)) : functionsAt inner v h = .ok [] := by
  unfold functionsAt
  rw [view_bind, ofKind_plain hv.2.isObject]
  rfl

theorem functionsAt_string (inner : Loc → HeapView (List Loc)) {v : Value} {chars : Bytes}
    (hv : h.ShowsConstant w v (.string chars)) : functionsAt inner v h = .ok [] := by
  obtain ⟨j, hash, hn, o, ho, -, hbody⟩ := hv
  unfold functionsAt
  rw [view_bind, hn.ofKind ho, Object.kind, hbody]
  rfl

theorem functionsAt_function (hp : Pictures w objects upvalues h) (inner : Loc → HeapView (List Loc)) {v : Value}
    {q : Prototype} {j : Loc} (hn : h.Names v j) (hw : w j = some (.function q)) :
    functionsAt inner v h = inner j h := by
  obtain ⟨fn, hfn, -⟩ := hp.function (hn.alive hp.sound.consistent) hw
  obtain ⟨o, ho, hbody⟩ := functionAt_eq_ok.mp hfn
  unfold functionsAt
  rw [view_bind, hn.ofKind ho, Object.kind, hbody]
  show (HeapView.locOfValue v >>= inner) h = _
  rw [view_bind, hn.locOfValue]

theorem constants_hold (hp : Pictures w objects upvalues h) (root : Loc) (inner : Loc → HeapView (List Loc))
    {vs : List Value} {cs : List Literal} {is : List Item} (hshows : List.Forall₂ (h.ShowsConstant w) vs cs)
    (hmade : List.Forall₂ Item.Made is cs)
    (hinner : ∀ v ∈ vs, ∀ q, .function q ∈ cs → ∀ g, .function g ∈ is → Item.Made (.function g) (.function q) →
      ∀ j, h.Names v j → w j = some (.function q) →
      ∃ ls, inner j h = .ok ls ∧ List.Forall₂ (h.Holds w root) ls g.functions) :
    ∃ lss, vs.mapM (functionsAt inner) h = .ok lss ∧
      List.Forall₂ (h.Holds w root) lss.flatten (Item.functionsOfAll is) := by
  induction hshows generalizing is with
  | nil =>
    cases hmade
    exact ⟨[], rfl, .nil⟩
  | @cons v c vs cs hv _ ih =>
    cases hmade with
    | @cons i _ is _ hi his =>
      obtain ⟨lss, hlss, hholds⟩ := ih his fun v hv q hq g hg =>
        hinner v (.tail _ hv) q (.tail _ hq) g (.tail _ hg)
      have hfirst : ∃ ls, functionsAt inner v h = .ok ls ∧ List.Forall₂ (h.Holds w root) ls i.functions := by
        cases hi with
        | number => exact ⟨[], functionsAt_number inner hv, .nil⟩
        | string => exact ⟨[], functionsAt_string inner hv, .nil⟩
        | function arity name captures code lines fits constants few =>
          obtain ⟨j, hn, hw⟩ := hv
          rw [functionsAt_function hp inner hn hw]
          exact hinner v (.head _) _ (.head _) _ (.head _)
            (.function arity name captures code lines fits constants few) j hn hw
      obtain ⟨ls, hls, hheld⟩ := hfirst
      refine ⟨ls :: lss, ?_, ?_⟩
      · rw [List.mapM_cons, view_bind, hls]
        dsimp only
        rw [view_bind, hlss]
        rfl
      · rw [List.flatten_cons, Item.functionsOfAll]
        exact List.rel_append hheld hholds

theorem functionsFrom_succ (fuel : Nat) (l : Loc) : functionsFrom (fuel + 1) l = (do
    let nested ← (← functionAt l).chunk.constants.toList.mapM (functionsAt (functionsFrom fuel))
    return l :: nested.flatten) := rfl

theorem functionsFrom_hold (hp : Pictures w objects upvalues h) (root : Loc) (fuel : Nat) {above : Finset Loc}
    (habove : above ⊆ Finset.range h.objects.size) (hfuel : h.objects.size + 1 ≤ fuel + above.card) {l : Loc}
    {q : Prototype} {g : Listing Item}
    (hlarger : ∀ k ∈ above, ∃ p, w k = some (.function p) ∧ sizeOf q < sizeOf p) (ha : h.Alive l)
    (hw : w l = some (.function q)) (hmade : Item.Made (.function g) (.function q)) (hverified : g.Verified)
    (hroot : ∀ fn, functionAt l h = .ok fn → h.FunctionIn root l fn) :
    ∃ ls, functionsFrom fuel l h = .ok ls ∧ List.Forall₂ (h.Holds w root) ls g.functions := by
  induction fuel generalizing above l q g with
  | zero =>
    -- there are no more functions around each other than objects
    have := Finset.card_le_card habove
    rw [Finset.card_range] at this
    omega
  | succ fuel ih =>
    obtain ⟨fn, hfn, hshows, -⟩ := hp.function ha hw
    obtain ⟨o, ho, hbody⟩ := functionAt_eq_ok.mp hfn
    have hin := hroot fn hfn
    have hl : l ∉ above := by
      intro hl
      obtain ⟨p, hp, hlt⟩ := hlarger l hl
      rw [hw] at hp
      cases hp
      exact absurd hlt (Nat.lt_irrefl _)
    have hrange : insert l above ⊆ Finset.range h.objects.size := by
      refine Finset.insert_subset (Finset.mem_range.mpr ?_) habove
      exact (Array.getElem?_eq_some_iff.mp ho).1
    have hmade' := hmade
    obtain ⟨kind, arity, name, origins, marks, code, is⟩ := g
    cases hmade' with
    | function _ _ _ _ _ _ hconstants =>
      obtain ⟨lss, hlss, hholds⟩ := constants_hold hp root (functionsFrom fuel) hshows.constants
        hconstants fun v hv q' hq' g' hg' hmade' j hn hw' => by
          have hsmaller := Prototype.sizeOf_lt hq'
          refine ih hrange ?_ (fun k hk => ?_) (hn.alive hp.sound.consistent) hw' hmade' ?_ fun fn' hfn' => ?_
          · rw [Finset.card_insert_of_notMem hl]
            omega
          · rcases Finset.mem_insert.mp hk with rfl | hk
            · exact ⟨q, hw, hsmaller⟩
            · obtain ⟨p, hp, hlt⟩ := hlarger k hk
              exact ⟨p, hp, Nat.lt_trans hsmaller hlt⟩
          · obtain ⟨-, -, -, hnested⟩ := hverified
            exact hnested g' hg'
          · obtain ⟨o', ho', hbody'⟩ := functionAt_eq_ok.mp hfn'
            exact .constant hin hv hn ho' hbody'
      refine ⟨l :: lss.flatten, ?_, ?_⟩
      · rw [functionsFrom_succ, view_bind, hfn]
        dsimp only
        rw [view_bind, hlss]
        rfl
      · rw [Listing.functions]
        exact .cons ⟨fn, q, hfn, hin, hshows, hmade, hverified⟩ hholds

/-- A section of a listing is that of the function with the listing. -/
def Sections (h : Heap) (w : World) (root : Loc) (g : Listing Item) (text : Bytes) : Prop :=
  ∃ k fn q, functionAt k h = .ok fn ∧ h.FunctionIn root k fn ∧ h.Lists w fn q g ∧ Lists.IsSection h fn q text

def sectionAt (k : Loc) : HeapView Bytes := do
  let f ← functionAt k
  let name : Bytes := match f.name with
    | some s => s.chars
    | none => "<script>"
  listChunk f.chunk name

theorem disassemble_eq (l : Loc) : disassemble l = (do
    let listings ← (← functionsOf l).mapM sectionAt
    return listings.flatten) := rfl

theorem Holds.sections (hp : Pictures w objects upvalues h) {root k : Loc} {g : Listing Item}
    (hk : h.Holds w root k g) : ∃ text, sectionAt k h = .ok text ∧ h.Sections w root g text := by
  obtain ⟨fn, q, hfn, hin, hl⟩ := hk
  obtain ⟨text, htext, hsection⟩ := hl.listChunk hp
  refine ⟨text, ?_, k, fn, q, hfn, hin, hl, hsection⟩
  have hname : (match fn.name with
      | some s => s.chars
      | none => ("<script>" : Bytes)) = q.name.getD ("<script>" : Bytes) := by
    rw [← hl.shows.name]
    cases fn.name <;> rfl
  unfold sectionAt
  rw [view_bind, hfn]
  dsimp only
  rw [hname, htext]

theorem disassemble_lists (hp : Pictures w objects upvalues h) {l : Loc} {p : Prototype} {f : Listing Item}
    (ha : h.Alive l) (hw : w l = some (.function p)) (hmade : Item.Made (.function f) (.function p))
    (hverified : f.Verified) : ∃ texts, disassemble l h = .ok texts.flatten ∧
      List.Forall₂ (h.Sections w l) f.functions texts := by
  obtain ⟨ls, hls, hholds⟩ := functionsFrom_hold hp l (h.objects.size + 1)
    (Finset.empty_subset _) (Nat.le_add_right _ _) (fun _ hk => absurd hk (Finset.notMem_empty _)) ha hw hmade
    hverified fun fn hfn => by
      obtain ⟨o, ho, hbody⟩ := functionAt_eq_ok.mp hfn
      exact .self ho hbody
  have htexts : ∃ texts, ls.mapM sectionAt h = .ok texts ∧
      List.Forall₂ (h.Sections w l) f.functions texts := by
    clear hls
    generalize f.functions = gs at hholds
    induction hholds with
    | nil => exact ⟨[], rfl, .nil⟩
    | @cons k g ls gs hk _ ih =>
      obtain ⟨texts, htexts, hsections⟩ := ih
      obtain ⟨text, htext, hsection⟩ := hk.sections hp
      refine ⟨text :: texts, ?_, .cons hsection hsections⟩
      rw [List.mapM_cons, view_bind, htext]
      dsimp only
      rw [view_bind, htexts]
      rfl
  obtain ⟨texts, htexts, hsections⟩ := htexts
  refine ⟨texts, ?_, hsections⟩
  have hall : functionsOf l h = .ok ls := hls
  rw [disassemble_eq, view_bind, hall]
  dsimp only
  rw [view_bind, htexts]
  rfl

end Heap

end Lox
