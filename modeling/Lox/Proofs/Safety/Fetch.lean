import Lox.Proofs.Safety.Facts

namespace Lox

variable {α β : Type}

namespace IdealM

def Safe (i : Ideal) (act : IdealM α) (post : α → Ideal → Prop) : Prop :=
  match act i with
  | .ok a i' => post a i'
  | .error (.error _) _ => True
  | .error (.fault _) _ => False

namespace Safe

variable {i i' : Ideal} {act : IdealM α} {f : α → IdealM β} {post : β → Ideal → Prop}

theorem pure {b : β} (h : post b i) : Safe i (Pure.pure b) post :=
  h

theorem bind {mid : α → Ideal → Prop} (hx : Safe i act mid) (hf : ∀ a i', mid a i' → Safe i' (f a) post) :
    Safe i (act >>= f) post := by
  unfold Safe at hx ⊢
  rw [runBind]
  cases hr : act i with
  | ok a i' =>
    rw [hr] at hx
    exact hf a i' hx
  | error e i' =>
    rw [hr] at hx
    cases e <;> exact hx

theorem step {a : α} (hx : act i = .ok a i') (hf : Safe i' (f a) post) : Safe i (act >>= f) post := by
  unfold Safe at hf ⊢
  rw [runBind, hx]
  exact hf

theorem of_eq {act : IdealM β} {b : β} (hx : act i = .ok b i') (h : post b i') : Safe i act post := by
  unfold Safe
  rw [hx]
  exact h

theorem imp {act : IdealM β} {post' : β → Ideal → Prop} (h : Safe i act post)
    (himp : ∀ b i', post b i' → post' b i') : Safe i act post' := by
  unfold Safe at h ⊢
  cases hr : act i with
  | ok b i' =>
    rw [hr] at h
    exact himp b i' h
  | error e i' =>
    rw [hr] at h
    cases e <;> exact h

theorem some {o : Option α} {a : α} (ho : o = Option.some a) (hf : Safe i (f a) post) :
    Safe i (ofOption o >>= f) post := by
  subst ho
  exact step rfl hf

end Safe

theorem frame_eq {i : Ideal} {f : Activation} {rest : List Activation} (hf : i.frames = f :: rest) :
    frame i = .ok f i := by
  unfold frame
  rw [runBind]
  simp only [runGet, hf]
  rfl

theorem object_eq {i : Ideal} {a : Nat} {o : Obj Routine} (ho : i.objects[a]? = some o) :
    object a i = .ok o i := by
  unfold object
  rw [runBind]
  simp only [runGet, ho]
  rfl

theorem closureAt_eq {i : Ideal} {a : Nat} {r : Routine} (hr : i.objects[a]? = some (.closure r)) :
    closureAt a i = .ok r i := by
  unfold closureAt
  rw [runBind, object_eq hr]
  rfl

theorem classAt_eq {i : Ideal} {a : Nat} {name : Bytes} {methods : Dict Nat}
    (ha : i.objects[a]? = some (.class_ name methods)) : classAt a i = .ok (name, methods) i := by
  unfold classAt
  rw [runBind, object_eq ha]
  rfl

theorem asClass_eq {i : Ideal} {a : Nat} (ha : ClassAt i.objects a) : asClass (.object a) i = .ok a i := by
  obtain ⟨name, methods, ha⟩ := ha
  show (do
    let _ ← classAt a
    return a : IdealM Nat) i = _
  rw [runBind, classAt_eq ha]
  rfl

theorem prototype_eq {i : Ideal} {f : Activation} {rest : List Activation} {p : Prototype} (hf : i.frames = f :: rest)
    (hp : CodeAt i.objects f.closure p) : prototype i = .ok p i := by
  obtain ⟨r, hr, rfl⟩ := hp
  unfold prototype
  rw [runBind, frame_eq hf]
  dsimp only
  rw [runBind, closureAt_eq hr]
  rfl

end IdealM

def Ideal.moved (i : Ideal) (ip : Nat) : Ideal :=
  { i with frames := match i.frames with
    | f :: rest => { f with ip } :: rest
    | [] => [] }

namespace Ideal

variable {i : Ideal} {ip : Nat}

@[simp] theorem moved_objects : (i.moved ip).objects = i.objects := rfl

@[simp] theorem moved_stack : (i.moved ip).stack = i.stack := rfl

@[simp] theorem moved_globals : (i.moved ip).globals = i.globals := rfl

theorem jumpTo_eq : IdealM.jumpTo ip i = .ok () (i.moved ip) := rfl

theorem frames_moved {f : Activation} {rest : List Activation} (hf : i.frames = f :: rest) :
    (i.moved ip).frames = { f with ip } :: rest := by
  simp only [moved, hf]

@[simp] theorem moved_moved {ip' : Nat} : (i.moved ip).moved ip' = i.moved ip' := by
  unfold moved
  cases i.frames <;> rfl

end Ideal

theorem Ideal.Typed.firsts_moved {Γ : Facts} {i : Ideal} {c : Nat} {slots : List Slot} (h : i.Typed Γ c slots)
    (ip : Nat) :
    List.Forall₂ (fun f v => i.stack[f.base]? = some v ∧ slots.reverse[f.base]? = some ⟨.first, true⟩)
      (i.moved ip).frames Γ.firsts := by
  have hfirsts := h.firsts
  unfold moved
  generalize i.frames = frames, Γ.firsts = firsts at hfirsts
  cases hfirsts with
  | nil => exact .nil
  | cons hf hrest => exact .cons hf hrest

def Prototype.Ahead (p : Prototype) (offset : Nat) (bytes : List UInt8) : Prop :=
  bytes <+: p.code.drop offset

namespace Prototype.Ahead

variable {p : Prototype} {offset : Nat} {b : UInt8} {bytes : List UInt8}

theorem head (h : p.Ahead offset (b :: bytes)) : p.code[offset]? = some b := by
  obtain ⟨rest, hrest⟩ := h
  have := congrArg List.head? hrest
  rw [List.head?_drop] at this
  exact this.symm

theorem tail (h : p.Ahead offset (b :: bytes)) : p.Ahead (offset + 1) bytes := by
  obtain ⟨rest, hrest⟩ := h
  refine ⟨rest, ?_⟩
  rw [← List.drop_drop, ← hrest]
  rfl

end Prototype.Ahead

namespace Facts.Knows

variable {Γ : Facts} {objects objects' : List (Obj Routine)} {c : Nat} {p : Prototype} {a : Sheet}

theorem length_lines (h : Γ.Knows objects c p a) : p.lines.length = p.code.length := by
  obtain ⟨-, ⟨-, -, -, hmade⟩, -⟩ := h
  cases hmade
  assumption

theorem code_pos (h : Γ.Knows objects c p a) : 0 < p.code.length := by
  obtain ⟨s, hs, -⟩ := h.certified.fits.enters
  obtain ⟨-, hlt, -⟩ := h.certified.admitted ⟨s, hs, .refl s⟩
  exact hlt

theorem line (h : Γ.Knows objects c p a) {ip : Nat} (hip : ip ≤ p.code.length) :
    ∃ line, p.lines[ip - 1]? = some line := by
  have := h.code_pos
  exact ⟨_, List.getElem?_eq_getElem (by rw [h.length_lines]; omega)⟩

end Facts.Knows

namespace IdealM

theorem traceLine_ok {Γ : Facts} {i : Ideal} {f : Activation} {p : Prototype} {a : Sheet}
    (h : Γ.Knows i.objects f.closure p a) (hip : f.ip ≤ p.code.length) :
    ∃ line, traceLine f i = .ok line i := by
  obtain ⟨line, hline⟩ := h.line hip
  obtain ⟨r, hr, rfl⟩ := h.closure
  refine ⟨⟨line, r.prototype.name.getD []⟩, ?_⟩
  unfold traceLine
  rw [runBind, closureAt_eq hr]
  dsimp only
  rw [runBind, hline]
  rfl

theorem readByte_eq {i : Ideal} {f : Activation} {rest : List Activation} {p : Prototype} {b : UInt8}
    {bytes : List UInt8} (hf : i.frames = f :: rest) (hp : CodeAt i.objects f.closure p)
    (hb : p.Ahead f.ip (b :: bytes)) : readByte i = .ok b (i.moved (f.ip + 1)) := by
  unfold readByte
  rw [runBind, frame_eq hf]
  dsimp only
  rw [runBind, prototype_eq hf hp]
  dsimp only
  rw [hb.head]
  rfl

theorem readShort_eq {i : Ideal} {f : Activation} {rest : List Activation} {p : Prototype} {n : Nat}
    (hf : i.frames = f :: rest) (hp : CodeAt i.objects f.closure p) (hn : n < 65536)
    (hb : p.Ahead f.ip (Operand.short n).bytes) : readShort i = .ok n (i.moved (f.ip + 2)) := by
  have hf' : (i.moved (f.ip + 1)).frames = { f with ip := f.ip + 1 } :: rest := Ideal.frames_moved hf
  have hlo : readByte (i.moved (f.ip + 1)) = .ok n.toUInt8 (i.moved (f.ip + 2)) := by
    rw [readByte_eq hf' hp hb.tail, Ideal.moved_moved]
  unfold readShort
  rw [runBind, readByte_eq hf hp hb]
  dsimp only
  rw [runBind, hlo]
  dsimp only
  rw [toNat_toUInt8 (by omega), show n.toUInt8.toNat = n % 256 from UInt8.toNat_ofNat', Nat.div_add_mod']
  rfl

theorem trace_ok {i : Ideal} (frames : List Activation) (h : ∀ f ∈ frames, ∃ line, traceLine f i = .ok line i) :
    ∃ lines, frames.mapM traceLine i = .ok lines i := by
  induction frames with
  | nil => exact ⟨[], rfl⟩
  | cons f frames ih =>
    rw [List.forall_mem_cons] at h
    obtain ⟨⟨line, hline⟩, hrest⟩ := h
    obtain ⟨lines, hlines⟩ := ih hrest
    refine ⟨line :: lines, ?_⟩
    rw [List.mapM_cons, runBind, hline]
    dsimp only
    rw [runBind, hlines]
    rfl

end IdealM

theorem Facts.Waiting.trace {Γ : Facts} {i : Ideal} {frames : List Activation} {below : List Slot}
    (h : Γ.Waiting i.objects frames below) : ∀ f ∈ frames, ∃ line, IdealM.traceLine f i = .ok line i := by
  induction h with
  | nil => nofun
  | cons hknows hadmits _ _ _ _ ih =>
    obtain ⟨-, hlt, -⟩ := hknows.certified.admitted hadmits
    exact List.forall_mem_cons.mpr ⟨IdealM.traceLine_ok hknows (Nat.le_of_lt hlt), ih⟩

namespace Ideal.Running

open IdealM

variable {Γ : Facts} {i : Ideal} {f : Activation} {rest : List Activation} {p : Prototype} {a : Sheet} {s : Shape}
    {below : List Slot}
  {bytes : List UInt8} (h : i.Running Γ f rest p a s below)

include h

theorem raise {post : α → Ideal → Prop} (q : RuntimeProblem) : Safe i (raise q : IdealM α) post := by
  obtain ⟨lines, hlines⟩ := trace_ok i.frames (by
    rw [h.frames]
    exact List.forall_mem_cons.mpr ⟨traceLine_ok h.knows h.place, h.waiting.trace⟩)
  unfold Safe IdealM.raise
  rw [runBind]
  simp only [runGet]
  rw [runBind, hlines]
  trivial

theorem raise_bind {β : Type} {post : β → Ideal → Prop} (q : RuntimeProblem) (g : α → IdealM β) :
    Safe i ((IdealM.raise q : IdealM α) >>= g) post :=
  .bind (h.raise q : Safe i (IdealM.raise q) fun _ _ => False) fun _ _ hfalse => hfalse.elim

theorem moved {ip : Nat} (hip : ip ≤ p.code.length) :
    (i.moved ip).Running Γ { f with ip } rest p a s below where
  frames := frames_moved h.frames
  waiting := h.waiting
  knows := h.knows
  base := h.base
  place := hip
  typed := { h.typed with firsts := h.typed.firsts_moved ip }
  declares := h.declares

theorem readByte {b : UInt8} (hb : p.Ahead f.ip (b :: bytes)) :
    IdealM.readByte i = .ok b (i.moved (f.ip + 1)) ∧
      (i.moved (f.ip + 1)).Running Γ { f with ip := f.ip + 1 } rest p a s below :=
  ⟨readByte_eq h.frames h.knows.closure hb, h.moved (List.getElem?_eq_some_iff.mp hb.head).1⟩

theorem readOperand {n : Nat} (hn : n < 256) (hb : p.Ahead f.ip (n.toUInt8 :: bytes)) :
    IdealM.readByte i = .ok n.toUInt8 (i.moved (f.ip + 1)) ∧ n.toUInt8.toNat = n ∧
      (i.moved (f.ip + 1)).Running Γ { f with ip := f.ip + 1 } rest p a s below := by
  obtain ⟨hread, hrunning⟩ := h.readByte hb
  exact ⟨hread, toNat_toUInt8 hn, hrunning⟩

theorem readShort {n : Nat} (hn : n < 65536) (hb : p.Ahead f.ip (Operand.short n).bytes) :
    IdealM.readShort i = .ok n (i.moved (f.ip + 2)) ∧
      (i.moved (f.ip + 2)).Running Γ { f with ip := f.ip + 2 } rest p a s below := by
  obtain ⟨-, hrunning⟩ := h.readByte hb
  obtain ⟨-, hrunning⟩ := hrunning.readByte hb.tail
  rw [Ideal.moved_moved] at hrunning
  exact ⟨readShort_eq h.frames h.knows.closure hn hb, hrunning⟩

theorem readConstant {k : Nat} {item : Item} (hk : (Γ.listing f.closure).constants[k]? = some item)
    (hlt : k < 256) (hb : p.Ahead f.ip (k.toUInt8 :: bytes)) : ∃ lit,
      IdealM.readConstant i = .ok lit (i.moved (f.ip + 1)) ∧ Item.Made item lit ∧
      (i.moved (f.ip + 1)).Running Γ { f with ip := f.ip + 1 } rest p a s below := by
  obtain ⟨hread, hnat, hrunning⟩ := h.readOperand hlt hb
  obtain ⟨lit, hlit, hmade⟩ := forall₂_getElem?_left h.knows.certified.constants hk
  refine ⟨lit, ?_, hmade, hrunning⟩
  unfold IdealM.readConstant
  rw [runBind, hread]
  dsimp only
  rw [runBind, prototype_eq hrunning.frames hrunning.knows.closure]
  dsimp only
  rw [hnat, hlit]
  rfl

theorem readName {k : Nat} {name : Bytes} (hk : (Γ.listing f.closure).signature.Names k name) (hlt : k < 256)
    (hb : p.Ahead f.ip (k.toUInt8 :: bytes)) :
    IdealM.readName i = .ok name (i.moved (f.ip + 1)) ∧
      (i.moved (f.ip + 1)).Running Γ { f with ip := f.ip + 1 } rest p a s below := by
  obtain ⟨lit, hread, hmade, hrunning⟩ := h.readConstant hk hlt hb
  cases hmade
  refine ⟨?_, hrunning⟩
  unfold IdealM.readName
  rw [runBind, hread]
  rfl

end Ideal.Running

end Lox

namespace Lox

def Template.Vetted (p : Prototype) : Prop :=
  ∃ f : Listing Item, f.Verified ∧ Item.Made (.function f) (.function p)

def Template.Lined (p : Prototype) : Prop :=
  ∀ offset op operand, p.Starts offset → p.instrAt offset = some (op, operand) → ∀ j < 1 + operand.size,
    p.lines[offset + j]? = p.lines[offset]?

def Template.EndsLow (p : Prototype) : Prop :=
  ∀ offset height operand, p.Reaches offset height → p.instrAt offset = some (.return_, operand) → height = 2

namespace Template.Vetted

variable {p q : Prototype} {offset height k : Nat} {op : Opcode} {operand : Operand}

theorem certified (h : p.Vetted) : ∃ f a, Certified f p a := by
  obtain ⟨f, ⟨hmarks, ⟨a, hlines, hfits⟩, -⟩, hmade⟩ := h
  exact ⟨f, a, hlines, hmarks, hfits, hmade⟩

theorem wellFormed (h : p.Vetted) : ∃ f, WellFormed f p := by
  obtain ⟨f, a, h⟩ := h.certified
  exact ⟨f, h.wellFormed⟩

theorem inner (h : p.Vetted) (hq : p.constants[k]? = some (.function q)) : q.Vetted := by
  obtain ⟨f, ⟨-, -, -, hnested⟩, hmade⟩ := h
  cases hmade with
  | function _ _ _ _ _ _ hconstants =>
    obtain ⟨i, hi, hm⟩ := forall₂_getElem? hconstants hq
    cases hm with
    | function arity name captures code lines fits constants few =>
      exact ⟨_, hnested _ (List.mem_of_getElem? hi), .function arity name captures code lines fits constants few⟩

theorem starts (h : p.Vetted) (hr : p.Reaches offset height) : p.Starts offset := by
  obtain ⟨f, a, h⟩ := h.certified
  exact (h.shape_of_reaches hr).1

theorem runs (h : p.Vetted) (hr : p.Reaches offset height) :
    ∃ op operand, p.instrAt offset = some (op, operand) ∧ Template.Has height op operand := by
  obtain ⟨f, h⟩ := h.wellFormed
  exact h.runs offset height hr

theorem names (h : p.Vetted) (hs : p.Starts offset) (hi : p.instrAt offset = some (op, operand)) :
    p.Names op operand := by
  obtain ⟨f, h⟩ := h.wellFormed
  exact h.names offset op operand hs hi

theorem ahead (h : p.Vetted) (hs : p.Starts offset) (hi : p.instrAt offset = some (op, operand)) :
    p.Ahead offset (op.toByte :: operand.bytes) ∧ operand.Fits ∧ operand.Suits op := by
  obtain ⟨f, a, h⟩ := h.certified
  obtain ⟨before, s, after, ha, rfl, -⟩ := h.row hs hi
  obtain ⟨next, hgoes, -⟩ := h.goes ha
  obtain ⟨hfits, hdrop⟩ := h.bytes_at ha
  refine ⟨⟨Code.bytes after.lines, ?_⟩, hfits, hgoes.instr.1⟩
  rw [hdrop]
  rfl

end Template.Vetted

theorem scriptListing_kind {body : List Stmt} {f : Listing Item} (h : scriptListing body = some f) :
    f.kind = .script := by
  obtain ⟨⟨q, g⟩, hmake, hq⟩ := Option.bind_eq_some_iff.mp h
  cases hq
  obtain ⟨u, g₁, hbegin, h₁⟩ := bind_some hmake
  obtain ⟨lines, g₂, hbody, hend⟩ := bind_some h₁
  cases hbegin
  have hopened := opened_script
  obtain ⟨n, hruns⟩ := Stmt.runs_codeOfAll body hbody (hopened.ready ⟨trivial, nofun⟩) hopened.settled
  exact (PlanM.endFunction_meets hopened hruns hend fun _ l hl => by cases hl; rfl).2.1

theorem vetted_script {body : List Stmt} {f : Listing Item} {p : Prototype} (h : scriptListing body = some f)
    (hmade : Item.Made (.function f) (.function p)) : p.Vetted ∧ p.EndsLow := by
  have hverified := (scriptListing_verified h).1
  refine ⟨⟨f, hverified, hmade⟩, fun offset height operand hr hi => ?_⟩
  obtain ⟨hmarks, ⟨a, hlines, hfits⟩, -⟩ := hverified
  have hcert : Certified f p a := ⟨hlines, hmarks, hfits, hmade⟩
  obtain ⟨hstarts, s, hs, rfl⟩ := hcert.shape_of_reaches hr
  obtain ⟨before, s', after, ha, rfl, hs'⟩ := hcert.row hstarts hi
  rw [hs] at hs'
  cases hs'
  obtain ⟨next, hgoes, -⟩ := hcert.goes ha
  cases hgoes with
  | effect he => cases he; all_goals rename_i hop; simp at hop
  | return_ hshape _ hslots =>
    rw [hshape, hslots (scriptListing_kind h)]
    rfl

namespace Template

/-- A prototype, and all functions in it. -/
inductive Part (p : Prototype) : Prototype → Prop
  | self : Part p p
  | constant {q q' : Prototype} {k : Nat} : Part p q → q.constants[k]? = some (.function q') → Part p q'

def Compiled (q : Prototype) : Prop :=
  ∃ source p, (analyze source).2 = [] ∧ Order.draftAll {} (analyze source).1 = some ⟨[], some p⟩ ∧ Part p q

variable {p q : Prototype}

theorem Vetted.part (h : p.Vetted) (hq : Part p q) : q.Vetted := by
  induction hq with
  | self => exact h
  | constant _ hk ih => exact ih.inner hk

theorem Compiled.inner {k : Nat} (h : p.Compiled) (hq : p.constants[k]? = some (.function q)) : q.Compiled := by
  obtain ⟨source, r, ha, hd, hpart⟩ := h
  exact ⟨source, r, ha, hd, hpart.constant hq⟩

theorem vetted_analyze {source : Bytes} (ha : (analyze source).2 = [])
    (hd : Order.draftAll {} (analyze source).1 = some ⟨[], some p⟩) : p.Vetted ∧ p.EndsLow ∧ p.arity = 0 := by
  obtain ⟨body, f, p', -, hlisting, hdraft, hmade⟩ := analyze_accepted ha
  rw [hd] at hdraft
  cases hdraft
  obtain ⟨hvetted, hlow⟩ := vetted_script hlisting hmade
  refine ⟨hvetted, hlow, ?_⟩
  cases hmade with
  | function arity => exact arity.trans (scriptListing_verified hlisting).2.1

theorem Compiled.vetted (h : p.Compiled) : p.Vetted := by
  obtain ⟨source, r, ha, hd, hpart⟩ := h
  exact (vetted_analyze ha hd).1.part hpart

end Template

end Lox
