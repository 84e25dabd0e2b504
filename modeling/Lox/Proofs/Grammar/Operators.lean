import Lox.Proofs.Grammar.Operands

namespace Lox

namespace Reader

variable {read : Nat → Parser Phrase} {n : Nat} {φ : Phrase} {ts ts' : List Token}

theorem call_some {callee : Phrase} {opening : Token}
    (hread : Reader.call read n callee opening ts = some (φ, ts')) :
    ∃ as closing, φ = .call callee opening as closing := by
  obtain ⟨b, ts₁, -, hrest⟩ := bind_some hread
  split at hrest
  all_goals
    obtain ⟨as, ts₂, -, hrest⟩ := bind_some hrest
    obtain ⟨closing, ts₃, -, hend⟩ := bind_some hrest
    cases hend
    exact ⟨as, closing, rfl⟩

end Reader

theorem Phrase.mem_joined {k : TokenKind} {a b : List Line} {l : Line} :
    (l ∈ a → l ∈ Phrase.joined k a b) ∧ (l ∈ b → l ∈ Phrase.joined k a b) ∧
      (l ∈ Phrase.joined k [] b → l ∈ Phrase.joined k a b) := by
  unfold Phrase.joined
  split <;> simp +contextual

namespace CompileM

variable {parse : Goal → CompileM Unit} {read : Nat → Parser Phrase} (hp : Compiles parse read) {n : Nat}
  {c : Compiler} {prev t : Token} {ts ts' : List Token} {items : List Item} {code : List UInt8} {φ : Phrase}
  {canAssign : Bool}

include hp

theorem yields_argumentsFrom {count fuel : Nat} {as : Arguments}
    (hread : Reader.argumentsFrom read fuel ts = some (as, ts')) (hcount : count + as.count ≤ 255)
    (hrange : ∀ u ∈ as.tokens, u.InRange) (hcode : Code.Fits (as.code items.length))
    (h : Clear c prev ts items code) :
    Yields (argumentsFrom parse count fuel) c fun total c' =>
      total = count + as.count ∧ as.Emitted ts' items code c' := by
  induction fuel generalizing count c prev ts items code as with
  | zero => cases hread
  | succ fuel ih =>
    obtain ⟨e, ts₁, he, hrest⟩ := bind_some hread
    obtain ⟨b, ts₂, hcheck, hmore⟩ := bind_some hrest
    unfold argumentsFrom
    cases b with
    | true =>
      rw [if_pos rfl] at hmore
      obtain ⟨comma, ts₃, hnext, hmore⟩ := bind_some hmore
      obtain ⟨rest, ts₄, hargs, hend⟩ := bind_some hmore
      cases hend
      rw [Arguments.tokens, List.forall_mem_append, List.forall_mem_cons] at hrange
      rw [Arguments.code, Code.fits_append] at hcode
      rw [Arguments.count] at hcount
      refine Yields.bind (hp he h ⟨hrange.1, hcode.1⟩) ?_
      rintro _ c₁ ⟨prev₁, h₁⟩
      dsimp only
      rw [if_neg (by omega)]
      refine Yields.bind (yields_accept h₁ hcheck hnext) ?_
      rintro _ c₂ ⟨rfl, h₂⟩
      rw [if_pos rfl]
      have hroom : count + 1 + rest.count ≤ 255 := by omega
      have hrest' := ih hargs hroom hrange.2.2 (by rw [List.length_append]; exact hcode.2) h₂
      refine hrest'.weaken ?_
      rintro total c₃ ⟨htotal, prev₃, h₃⟩
      refine ⟨?_, prev₃, ?_⟩
      · rw [htotal, Arguments.count]
        omega
      · simpa [Arguments.items, Arguments.code] using h₃
    | false =>
      rw [if_neg Bool.false_ne_true] at hmore
      cases hmore
      refine Yields.bind (hp he h ⟨hrange, hcode⟩) ?_
      rintro _ c₁ ⟨prev₁, h₁⟩
      have hroom : count + 1 ≤ 255 := hcount
      obtain ⟨rfl, -⟩ := run_check_clear h₁ hcheck
      dsimp only
      rw [if_neg (by omega)]
      refine Yields.read (run_accept_none h₁ hcheck) ?_
      exact .pure ⟨rfl, prev₁, h₁⟩

theorem yields_argumentList {callee : Phrase} {opening closing : Token} {as : Arguments}
    (hread : Reader.call read n callee opening ts = some (.call callee opening as closing, ts'))
    (hrange : ∀ u ∈ as.tokens, u.InRange) (hcode : Code.Fits (as.code items.length)) (hcount : as.count < 256)
    (h : Clear c prev ts items code) : Yields (argumentList parse n) c fun b c' =>
      b = as.count.toUInt8 ∧ as.Emitted ts' items code c' := by
  obtain ⟨b, ts₁, hcheck, hrest⟩ := bind_some hread
  obtain ⟨rfl, hrun⟩ := run_check_clear h hcheck
  refine Yields.read hrun ?_
  cases b with
  | true =>
    obtain ⟨as, ts₂, hnone, hrest⟩ := bind_some hrest
    obtain ⟨closing, ts₃, hclose, hend⟩ := bind_some hrest
    cases hnone
    cases hend
    refine Yields.read (rfl : (pure 0 : CompileM Nat) c = (0, c)) ?_
    refine Yields.bind (yields_consume h hclose) fun _ c₁ h₁ => .pure ⟨rfl, closing, ?_⟩
    simpa [Arguments.items, Arguments.code] using h₁
  | false =>
    obtain ⟨as, ts₂, hargs, hrest⟩ := bind_some hrest
    obtain ⟨closing, ts₃, hclose, hend⟩ := bind_some hrest
    cases hend
    refine Yields.bind (yields_argumentsFrom hp hargs (by omega) hrange hcode h) ?_
    rintro _ c₁ ⟨rfl, prev₁, h₁⟩
    refine Yields.bind (yields_consume h₁ hclose) fun _ c₂ h₂ => .pure ⟨?_, closing, h₂⟩
    rw [Nat.zero_add]

variable {left : Phrase}

theorem yields_call (hget : left.isGet = false) (hread : Reader.call read n left t ts = some (φ, ts'))
    (hfits : φ.Fits items.length)
    (h : Clear c t ts (items ++ left.items) (code ++ Code.bytes (left.code items.length))) :
    Yields (call parse n) c fun _ => φ.Emitted ts' items code := by
  obtain ⟨as, closing, rfl⟩ := Reader.call_some hread
  obtain ⟨hrange, hcode⟩ := hfits
  rw [Phrase.code_call hget, Code.fits_append, Code.fits_append, Code.fits_cons_iff] at hcode
  rw [Phrase.InRange, Phrase.tokens, List.forall_mem_append, List.forall_mem_cons, List.forall_mem_append] at hrange
  refine Yields.bind (yields_argumentList hp hread hrange.2.2.1 (by rw [List.length_append]; exact hcode.1.2)
    hcode.2.1 h) ?_
  rintro _ c₁ ⟨rfl, prev₁, h₁⟩
  refine (yields_emitWith .call as.count h₁).weaken fun _ c₂ h₂ => ⟨prev₁, ?_⟩
  rw [Phrase.code_call hget]
  simpa [Phrase.items] using h₂

theorem yields_property {name : Token} (hread : Reader.property read n canAssign left t name ts = some (φ, ts'))
    (hfits : φ.Fits items.length) : items.length + left.items.length < 256 ∧
      ∀ {c : Compiler} {code : List UInt8}, Clear c name ts (items ++ left.items ++ [.string name.lexeme])
        (code ++ Code.bytes (left.code items.length)) →
          Yields (property parse n (items.length + left.items.length).toUInt8 canAssign) c fun _ =>
            φ.Emitted ts' items code := by
  obtain ⟨b, ts₁, hequal, hrest⟩ := bind_some hread
  obtain ⟨hrange, hcode⟩ := hfits
  have hlength : (items ++ left.items ++ [Item.string name.lexeme]).length =
      items.length + left.items.length + 1 := by
    rw [List.length_append, List.length_append]
    rfl
  cases b with
  | true =>
    rw [if_pos rfl] at hrest
    obtain ⟨equal, ts₂, hnext, hrest⟩ := bind_some hrest
    obtain ⟨value, ts₃, hvalue, hend⟩ := bind_some hrest
    cases hend
    rw [Phrase.code, Code.fits_append, Code.fits_append, Code.fits_cons_iff] at hcode
    rw [Phrase.InRange, Phrase.tokens, List.forall_mem_append] at hrange
    have hvalueFits : value.Fits (items ++ left.items ++ [Item.string name.lexeme]).length := by
      rw [hlength]
      exact ⟨fun u hu => hrange.2 u (.tail _ (.tail _ (.tail _ hu))), hcode.1.2⟩
    refine ⟨hcode.2.1, fun h => ?_⟩
    unfold property
    rcases yields_assigns h hequal with ⟨-, hassign⟩ | ⟨hfalse, -⟩
    · refine Yields.bind (hassign hnext) ?_
      rintro _ c₁ ⟨rfl, h₁⟩
      rw [if_pos rfl]
      refine Yields.bind (hp hvalue h₁ hvalueFits) ?_
      rintro _ c₂ ⟨prev₂, h₂⟩
      refine (yields_emitWith .setProperty _ h₂).weaken fun _ c₃ h₃ => ⟨prev₂, ?_⟩
      simpa [Phrase.items, Phrase.code, Nat.add_assoc] using h₃
    · cases hfalse
  | false =>
    rw [if_neg Bool.false_ne_true] at hrest
    obtain ⟨b, ts₂, hparen, hcall⟩ := bind_some hrest
    have hassign {c : Compiler} {code : List UInt8}
        (h : Clear c name ts (items ++ left.items ++ [Item.string name.lexeme])
        (code ++ Code.bytes (left.code items.length))) :
        ts₁ = ts ∧ (pure canAssign <&&> accept .equal) c = (false, c) := by
      rcases yields_assigns h hequal with ⟨htrue, -⟩ | ⟨-, hsame, hrun⟩
      · cases htrue
      · exact ⟨hsame, hrun⟩
    unfold property
    cases b with
    | true =>
      rw [if_pos rfl] at hcall
      obtain ⟨opening, ts₃, hnext, hcall⟩ := bind_some hcall
      obtain ⟨as, closing, rfl⟩ := Reader.call_some hcall
      rw [Phrase.code, Code.fits_append, Code.fits_append, Code.fits_cons_iff] at hcode
      rw [Phrase.InRange, Phrase.tokens, List.forall_mem_append, List.forall_mem_cons,
        List.forall_mem_append] at hrange
      refine ⟨hcode.2.1.1, fun h => ?_⟩
      obtain ⟨rfl, hrun⟩ := hassign h
      refine Yields.read hrun (Yields.bind (yields_accept h hparen hnext) ?_)
      rintro _ c₁ ⟨rfl, h₁⟩
      rw [if_pos rfl]
      refine Yields.bind (yields_argumentList hp hcall hrange.2.2.1 (by rw [hlength]; exact hcode.1.2)
        hcode.2.1.2 h₁) ?_
      rintro _ c₂ ⟨rfl, prev₂, h₂⟩
      refine Yields.bind (yields_emitWith .invoke _ h₂) fun _ c₃ h₃ => ?_
      refine (yields_emitByte as.count.toUInt8 h₃).weaken fun _ c₄ h₄ => ⟨prev₂, ?_⟩
      simpa [Phrase.items, Phrase.code, Nat.add_assoc, Line.bytes, Operand.bytes] using h₄
    | false =>
      rw [if_neg Bool.false_ne_true] at hcall
      cases hcall
      rw [Phrase.code, Code.fits_append, Code.fits_cons_iff] at hcode
      refine ⟨hcode.2.1, fun h => ?_⟩
      obtain ⟨rfl, hrun⟩ := hassign h
      obtain ⟨rfl, -⟩ := run_check_clear h hparen
      refine Yields.read hrun (Yields.read (run_accept_none h hparen) ?_)
      refine (yields_emitWith .getProperty _ h).weaken fun _ c₁ h₁ => ⟨name, ?_⟩
      simpa [Phrase.items, Phrase.code] using h₁

theorem yields_access (hread : Reader.access read n canAssign left t ts = some (φ, ts'))
    (hfits : φ.Fits items.length)
    (h : Clear c t ts (items ++ left.items) (code ++ Code.bytes (left.code items.length))) :
    Yields (dot parse n canAssign) c fun _ => φ.Emitted ts' items code := by
  obtain ⟨name, ts₁, hname, hproperty⟩ := bind_some hread
  obtain ⟨hroom, hrun⟩ := yields_property hp hproperty hfits
  refine Yields.bind (yields_consume h hname) fun _ c₁ h₁ => ?_
  refine Yields.read (run_lexeme h₁.compiler) ?_
  refine Yields.bind (yields_nameConstant name.lexeme (by rw [List.length_append]; exact hroom) h₁) ?_
  rintro _ c₂ ⟨rfl, h₂⟩
  rw [List.length_append]
  exact hrun h₂

omit hp in
theorem yields_emitAll (ops : List Opcode) (h : Clear c prev ts items code) :
    Yields (ops.forM emit) c fun _ c' => Clear c' prev ts items (code ++ Code.bytes (ops.map (.instr · .none))) := by
  induction ops generalizing c code with
  | nil => exact .pure (h.recode (by simp))
  | cons op ops ih =>
    refine Yields.bind (yields_emit op h) fun _ c₁ h₁ => ?_
    exact (ih h₁).weaken fun _ c₂ h₂ => h₂.recode (by simp)

section Joined

variable {right : Phrase} (hrange : right.InRange)
  (h : Clear c t ts (items ++ left.items) (code ++ Code.bytes (left.code items.length)))

include hrange h

theorem yields_binary {op : BinaryOp} (hop : BinaryOp.ofToken? t.kind = some op)
    (hread : read (Precedence.of t.kind + 1) ts = some (right, ts'))
    (hcode : Code.Fits (right.code (items.length + left.items.length))) :
    Yields (binary parse t.kind) c fun _ => (Phrase.binary left t right).Emitted ts' items code := by
  have hjoined (a b : List Line) : Phrase.joined t.kind a b = a ++ b ++ op.code.map (Line.instr · .none) := by
    cases hk : t.kind <;> rw [hk] at hop <;> cases hop <;> rfl
  refine Yields.bind (hp hread h ⟨hrange, by rw [List.length_append]; exact hcode⟩) fun _ c₁ ⟨prev₁, h₁⟩ => ?_
  rw [binaryCode_of hop]
  refine (yields_emitAll op.code h₁).weaken fun _ c₂ h₂ => ⟨prev₁, ?_⟩
  rw [Phrase.code, hjoined]
  simpa [Phrase.items] using h₂

theorem yields_and (ht : t.kind = .and_) (hread : read Precedence.and_ ts = some (right, ts'))
    (hcode : Code.Fits (Phrase.joined .and_ [] (right.code (items.length + left.items.length)))) :
    Yields (and_ parse) c fun _ => (Phrase.binary left t right).Emitted ts' items code := by
  obtain ⟨hjump, hpop⟩ := Code.fits_cons_iff.mp hcode
  refine Yields.bind (yields_emitJump .jumpIfFalse h) fun place c₁ ⟨hplace, h₁⟩ => ?_
  refine Yields.bind (yields_emit .pop h₁) fun _ c₂ h₂ => ?_
  refine Yields.bind (hp hread h₂ ⟨hrange, by rw [List.length_append]; exact (Code.fits_cons_iff.mp hpop).2⟩)
    fun _ c₃ ⟨prev₃, h₃⟩ => ?_
  rw [List.length_append] at h₃
  have h₃' := h₃.recode (by simp : _ = (code ++ Code.bytes (left.code items.length)) ++
    Opcode.jumpIfFalse.toByte :: 0xff :: 0xff ::
      Code.bytes ([Line.instr .pop .none] ++ right.code (items.length + left.items.length)))
  refine (yields_patchJump hplace (by rw [Code.length_bytes]; exact hjump) h₃').weaken fun _ c₄ h₄ => ⟨prev₃, ?_⟩
  rw [Code.length_bytes] at h₄
  rw [Phrase.code, ht]
  simpa [Phrase.items, Phrase.joined, Line.size, Operand.size] using h₄

theorem yields_or (ht : t.kind = .or_) (hread : read Precedence.or_ ts = some (right, ts'))
    (hcode : Code.Fits (Phrase.joined .or_ [] (right.code (items.length + left.items.length)))) :
    Yields (or_ parse) c fun _ => (Phrase.binary left t right).Emitted ts' items code := by
  obtain ⟨-, hrest⟩ := Code.fits_cons_iff.mp hcode
  obtain ⟨hjump, hpop⟩ := Code.fits_cons_iff.mp hrest
  refine Yields.bind (yields_emitJump .jumpIfFalse h) fun elseJump c₁ ⟨helse, h₁⟩ => ?_
  refine Yields.bind (yields_emitJump .jump h₁) fun endJump c₂ ⟨hend, h₂⟩ => ?_
  rw [List.append_assoc, List.cons_append, List.cons_append, List.cons_append, List.nil_append] at h₂
  refine Yields.bind (yields_patchJump helse (by decide) h₂) fun _ c₃ h₃ => ?_
  refine Yields.bind (yields_emit .pop h₃) fun _ c₄ h₄ => ?_
  refine Yields.bind (hp hread h₄ ⟨hrange, by rw [List.length_append]; exact (Code.fits_cons_iff.mp hpop).2⟩)
    fun _ c₅ ⟨prev₅, h₅⟩ => ?_
  rw [List.length_append] at h₅
  have h₅' := h₅.recode (by simp : _ = (code ++ Code.bytes (left.code items.length) ++
    Code.bytes [Line.instr .jumpIfFalse (.short 3)]) ++ Opcode.jump.toByte :: 0xff :: 0xff ::
      Code.bytes ([Line.instr .pop .none] ++ right.code (items.length + left.items.length)))
  refine (yields_patchJump (by simp [hend, Line.bytes, Operand.bytes]) (by rw [Code.length_bytes]; exact hjump)
    h₅').weaken fun _ c₆ h₆ => ⟨prev₅, ?_⟩
  rw [Code.length_bytes] at h₆
  rw [Phrase.code, ht]
  simpa [Phrase.items, Phrase.joined, Line.size, Operand.size] using h₆

end Joined

theorem yields_operation (hget : left.isGet = true → t.kind ≠ .leftParen)
    (hread : Reader.operation read n canAssign left t ts = some (φ, ts')) (hfits : φ.Fits items.length)
    (h : Clear c t ts (items ++ left.items) (code ++ Code.bytes (left.code items.length))) :
    Yields (infixRule parse n canAssign t.kind) c fun _ => φ.Emitted ts' items code := by
  have hright {right : Phrase} (hfits : (Phrase.binary left t right).Fits items.length) : right.InRange :=
    fun u hu => hfits.1 u (List.mem_append_right _ (.tail _ hu))
  have hcode {right : Phrase} (hfits : (Phrase.binary left t right).Fits items.length) :
      Code.Fits (Phrase.joined t.kind [] (right.code (items.length + left.items.length))) :=
    fun l hl => hfits.2 l (Phrase.mem_joined.2.2 hl)
  unfold Reader.operation at hread
  cases hk : t.kind <;> rw [hk] at hread
  case leftParen => exact yields_call hp (eq_false_of_ne_true fun hg => hget hg hk) hread hfits h
  case dot => exact yields_access hp hread hfits h
  case and_ =>
    obtain ⟨right, ts₁, hr, hend⟩ := bind_some hread
    cases hend
    exact yields_and hp (hright hfits) h hk hr (hk ▸ hcode hfits)
  case or_ =>
    obtain ⟨right, ts₁, hr, hend⟩ := bind_some hread
    cases hend
    exact yields_or hp (hright hfits) h hk hr (hk ▸ hcode hfits)
  case minus | plus | slash | star | bangEqual | equalEqual | greater | greaterEqual | less | lessEqual =>
    obtain ⟨right, ts₁, hr, hend⟩ := bind_some hread
    cases hend
    have hrun := yields_binary hp (hright hfits) h (by rw [hk]; rfl) (by rw [hk]; exact hr)
      (fun l hl => hcode hfits l (Phrase.mem_joined.2.1 hl))
    rw [hk] at hrun
    exact hrun
  all_goals cases hread

end CompileM

end Lox

namespace Lox

structure Phrase.Extends (φ left : Phrase) : Prop where
  tokens : ∀ u ∈ left.tokens, u ∈ φ.tokens
  code : ∀ k, ∀ l ∈ left.code k, l ∈ φ.code k

namespace Phrase.Extends

theorem refl (φ : Phrase) : φ.Extends φ :=
  ⟨fun _ hu => hu, fun _ _ hl => hl⟩

theorem trans {φ ψ left : Phrase} (h : φ.Extends ψ) (h' : ψ.Extends left) : φ.Extends left :=
  ⟨fun u hu => h.tokens u (h'.tokens u hu), fun k l hl => h.code k l (h'.code k l hl)⟩

theorem fits {φ left : Phrase} (h : φ.Extends left) {k : Nat} (hfits : φ.Fits k) : left.Fits k :=
  ⟨fun u hu => hfits.1 u (h.tokens u hu), fun l hl => hfits.2 l (h.code k l hl)⟩

end Phrase.Extends

def Phrase.Closed (φ : Phrase) (ts : List Token) : Prop :=
  φ.isGet = true → ∀ u ∈ ts.head?, u.kind ≠ .leftParen

namespace Reader

variable {read : Nat → Parser Phrase} {n depth : Nat} {canAssign : Bool} {left φ : Phrase} {t : Token}
  {ts ts' : List Token}

theorem extends_property {name : Token} (h : property read n canAssign left t name ts = some (φ, ts')) :
    φ.Extends left ∧ φ.Closed ts' := by
  obtain ⟨b, ts₁, -, hrest⟩ := bind_some h
  cases b with
  | true =>
    obtain ⟨equal, ts₂, -, hrest⟩ := bind_some hrest
    obtain ⟨value, ts₃, -, hend⟩ := bind_some hrest
    cases hend
    refine ⟨⟨fun u hu => List.mem_append_left _ hu, fun k l hl => ?_⟩, by rintro ⟨⟩⟩
    rw [Phrase.code, List.append_assoc]
    exact List.mem_append_left _ hl
  | false =>
    obtain ⟨b, ts₂, hparen, hrest⟩ := bind_some hrest
    cases b with
    | true =>
      obtain ⟨opening, ts₃, -, hcall⟩ := bind_some hrest
      obtain ⟨as, closing, rfl⟩ := call_some hcall
      refine ⟨⟨fun u hu => List.mem_append_left _ (List.mem_append_left _ hu), fun k l hl => ?_⟩, by rintro ⟨⟩⟩
      rw [Phrase.code, List.append_assoc]
      exact List.mem_append_left _ hl
    | false =>
      cases hrest
      obtain ⟨rfl, u, rest, rfl, hne⟩ := Parser.check_some hparen
      refine ⟨⟨fun u hu => List.mem_append_left _ hu, fun k l hl => List.mem_append_left _ hl⟩, fun _ v hv => ?_⟩
      cases hv
      exact of_decide_eq_false hne.symm

theorem extends_operation (hget : left.isGet = true → t.kind ≠ .leftParen)
    (h : operation read n canAssign left t ts = some (φ, ts')) : φ.Extends left ∧ φ.Closed ts' := by
  unfold operation at h
  cases hk : t.kind <;> rw [hk] at h
  case leftParen =>
    have hcall : left.isGet = false := eq_false_of_ne_true fun hg => hget hg hk
    obtain ⟨as, closing, rfl⟩ := call_some h
    refine ⟨⟨fun u hu => List.mem_append_left _ hu, fun k l hl => ?_⟩, nofun⟩
    rw [Phrase.code_call hcall, List.append_assoc]
    exact List.mem_append_left _ hl
  case dot =>
    obtain ⟨name, ts₁, -, hproperty⟩ := bind_some h
    exact extends_property hproperty
  case minus | plus | slash | star | bangEqual | equalEqual | greater | greaterEqual | less | lessEqual | and_ |
      or_ =>
    obtain ⟨right, ts₁, -, hend⟩ := bind_some h
    cases hend
    exact ⟨⟨fun u hu => List.mem_append_left _ hu, fun k l hl => Phrase.mem_joined.1 hl⟩, nofun⟩
  all_goals cases h

theorem extends_operations {fuel : Nat} (hclosed : left.Closed ts)
    (h : operations read n depth fuel left ts = some (φ, ts')) : φ.Extends left := by
  induction fuel generalizing left ts with
  | zero => cases h
  | succ fuel ih =>
    obtain ⟨u, ts₁, hpeek, hrest⟩ := bind_some h
    obtain _ | ⟨t, rest⟩ := ts
    · cases hpeek
    cases hpeek
    split at hrest
    · obtain ⟨t', ts₂, hnext, hsome⟩ := bind_some hrest
      obtain ⟨rfl, rfl⟩ := List.cons.inj (Parser.next_some hnext)
      obtain ⟨ψ, ts₃, hψ, hmore⟩ := bind_some hsome
      obtain ⟨hextends, hclosed'⟩ := extends_operation (fun hg => hclosed hg _ rfl) hψ
      exact (ih hclosed' hmore).trans hextends
    · cases hrest
      exact .refl _

theorem closed_operand {parse : Nat → Parser Phrase} (h : operand parse canAssign t ts = some (φ, ts')) :
    φ.isGet = false := by
  unfold operand at h
  cases hk : t.kind <;> rw [hk] at h
  case leftParen =>
    obtain ⟨inner, ts₁, -, hrest⟩ := bind_some h
    obtain ⟨closing, ts₂, -, hend⟩ := bind_some hrest
    cases hend
    rfl
  case minus | bang =>
    obtain ⟨inner, ts₁, -, hend⟩ := bind_some h
    cases hend
    rfl
  case identifier =>
    obtain ⟨b, ts₁, -, hrest⟩ := bind_some h
    cases b with
    | true =>
      obtain ⟨equal, ts₂, -, hrest⟩ := bind_some hrest
      obtain ⟨value, ts₃, -, hend⟩ := bind_some hrest
      cases hend
      rfl
    | false =>
      cases hrest
      rfl
  all_goals
    cases h
    try rfl

end Reader

namespace CompileM

variable {parse : Goal → CompileM Unit} {read : Nat → Parser Phrase} (hp : Compiles parse read) {n depth : Nat}
  {c : Compiler} {prev : Token} {ts ts' : List Token} {items : List Item} {code : List UInt8} {left φ : Phrase}

include hp

theorem yields_operations {fuel : Nat} (hclosed : left.Closed ts)
    (hread : Reader.operations read n depth fuel left ts = some (φ, ts')) (hfits : φ.Fits items.length)
    (h : Clear c prev ts (items ++ left.items) (code ++ Code.bytes (left.code items.length))) :
    Yields (loop fuel (operators parse n depth (depth ≤ Precedence.assignment))) c fun _ =>
      φ.Emitted ts' items code := by
  induction fuel generalizing c prev ts left with
  | zero => cases hread
  | succ fuel ih =>
    obtain ⟨u, ts₁, hpeek, hrest⟩ := bind_some hread
    obtain _ | ⟨t, rest⟩ := ts
    · cases hpeek
    cases hpeek
    obtain ⟨hcurrent, -⟩ := List.cons.inj h.compiler.tokens
    have hget (c : Compiler) : (get : CompileM Compiler) c = (c, c) := rfl
    unfold loop operators
    by_cases hop : depth ≤ Precedence.of u.kind
    · rw [if_pos hop] at hrest
      obtain ⟨t, ts₂, hnext, hsome⟩ := bind_some hrest
      obtain ⟨ψ, ts₃, hψ, hmore⟩ := bind_some hsome
      obtain ⟨rfl, rfl⟩ := List.cons.inj (Parser.next_some hnext)
      have hkind : left.isGet = true → u.kind ≠ .leftParen := fun hg => hclosed hg u rfl
      obtain ⟨-, hclosed'⟩ := Reader.extends_operation hkind hψ
      have hψfits := (Reader.extends_operations hclosed' hmore).fits hfits
      have hstep : Yields (operators parse n depth (depth ≤ Precedence.assignment)) c fun b c' =>
          b = true ∧ ψ.Emitted ts₃ items code c' := by
        unfold operators
        refine Yields.read (hget c) ?_
        rw [hcurrent, if_pos hop]
        refine Yields.bind (yields_advance h hnext) fun _ c₁ h₁ => Yields.read (hget c₁) ?_
        rw [h₁.compiler.previous]
        exact Yields.bind (yields_operation hp hkind hψ hψfits h₁) fun _ c₂ h₂ => .pure ⟨rfl, h₂⟩
      refine Yields.bind hstep ?_
      rintro _ c₁ ⟨rfl, prev₁, h₁⟩
      rw [if_pos rfl]
      exact ih hclosed' hmore h₁
    · rw [if_neg hop] at hrest
      cases hrest
      have hstep : operators parse n depth (depth ≤ Precedence.assignment) c = (false, c) := by
        unfold operators
        rw [run_bind, hget c]
        dsimp only
        rw [hcurrent, if_neg hop]
        rfl
      exact Yields.read hstep ⟨prev, h⟩

theorem yields_parsePrecedence (hread : Reader.parsePrecedence read n depth ts = some (φ, ts'))
    (hfits : φ.Fits items.length) (h : Clear c prev ts items code) :
    Yields (parsePrecedence parse n depth) c fun _ => φ.Emitted ts' items code := by
  obtain ⟨ψ, ts₁, hchain, hrest⟩ := bind_some hread
  obtain ⟨t, ts₂, hnext, hchain⟩ := bind_some hchain
  obtain ⟨first, ts₃, hoperand, hoperations⟩ := bind_some hchain
  obtain ⟨b, ts₄, htarget, hend⟩ := bind_some hrest
  have hclosed : first.Closed ts₃ := fun hg => by
    rw [Reader.closed_operand hoperand] at hg
    cases hg
  cases b with
  | true => cases hend
  | false =>
    cases hend
    have hfirst := (Reader.extends_operations hclosed hoperations).fits hfits
    have hgenuine : t.Genuine := by
      have hstream := h.compiler.stream
      rw [Parser.next_some hnext] at hstream
      exact hstream.genuine
    have hget (c : Compiler) : (get : CompileM Compiler) c = (c, c) := rfl
    rw [parsePrecedence_eq]
    refine Yields.bind (yields_advance h hnext) fun _ c₁ h₁ => Yields.read (hget c₁) ?_
    rw [h₁.compiler.previous]
    unfold afterToken
    obtain ⟨rule, hrule, hrun⟩ := yields_operand hp (n := n) hgenuine hoperand hfirst h₁
    rw [hrule]
    refine Yields.bind hrun fun _ c₂ ⟨prev₂, h₂⟩ => ?_
    refine Yields.bind (yields_operations hp hclosed hoperations hfits h₂) fun _ c₃ ⟨prev₃, h₃⟩ => ?_
    rcases yields_assigns h₃ htarget with ⟨htrue, -⟩ | ⟨-, rfl, hnone⟩
    · cases htrue
    · exact Yields.read hnone ⟨prev₃, h₃⟩

omit hp in
theorem compiles_parse (n : Nat) : Compiles (CompileM.parse n) (Reader.upTo n) := by
  induction n with
  | zero => exact fun hread => nomatch hread
  | succ n ih => exact fun hread h hfits => yields_parsePrecedence ih hread hfits h

end CompileM

end Lox
