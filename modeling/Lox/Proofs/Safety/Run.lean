import Lox.Proofs.Ideal.Start
import Lox.Proofs.Safety.Closures

namespace Lox

def Prototype.nameAt (p : Prototype) (offset : Nat) : Option Bytes := do
  let k ← p.code[offset]?
  match ← p.constants[k.toNat]? with
  | .string name => some name
  | _ => none

def Val.address? : Val → Option Nat
  | .object a => some a
  | _ => none

namespace Ideal

def top? (i : Ideal) (d : Nat) : Option Nat :=
  i.stack.reverse[d]?.bind Val.address?

def closures (i : Ideal) : List Nat :=
  i.frames.map (·.closure)

def instr? (i : Ideal) : Option (Opcode × Option Bytes) := do
  let f ← i.frames.head?
  match ← i.objects[f.closure]? with
  | .closure r => return (← Opcode.ofByte? (← r.prototype.code[f.ip]?), r.prototype.nameAt (f.ip + 1))
  | _ => none

def deed (i i' : Ideal) : Deed :=
  match i.instr? with
  | some (op, name) => .of op name i.closures.head? (i.top? 0) (i.top? 1) (i'.top? 0)
  | none => .idle

end Ideal

inductive Facts.Turn (Γ Γ' : Facts) (i i' : Ideal) : Prop
  | stays : i'.closures = i.closures → Γ'.firsts = Γ.firsts → Turn Γ Γ' i i'
  | enters {c : Nat} {v : Val} : i'.closures = c :: i.closures → Γ'.firsts = v :: Γ.firsts → Turn Γ Γ' i i'
  | leaves {c : Nat} {v : Val} : i.closures = c :: i'.closures → Γ.firsts = v :: Γ'.firsts →
      ((Γ.listing c).kind = .initializer → i'.stack.reverse[0]? = some v) → Turn Γ Γ' i i'

def Facts.Keeps (Γ Γ' : Facts) (n : Nat) : Prop :=
  ∀ k < n, Γ.declaring ≠ some k → Γ'.declaring ≠ some k ∧ Γ'.lineage.own k = Γ.lineage.own k ∧
    Γ'.lineage.parent k = Γ.lineage.parent k

theorem Facts.Keeps.of_eq {Γ Γ' : Facts} {n : Nat} (hdeclaring : Γ'.declaring = Γ.declaring)
    (hown : Γ'.lineage.own = Γ.lineage.own) (hparent : Γ'.lineage.parent = Γ.lineage.parent) : Γ.Keeps Γ' n :=
  fun _ _ hk => ⟨hdeclaring ▸ hk, by rw [hown], by rw [hparent]⟩

namespace Ideal.Running

open IdealM

variable {Γ Γ' : Facts} {i i' : Ideal} {f g : Activation} {rest : List Activation} {p q : Prototype} {a b : Sheet}
  {s t : Shape} {slots below below' : List Slot} {op : Opcode} {operand : Operand} {n : Nat}

theorem closures (h : i.Running Γ f rest p a s below) : i.closures = f.closure :: rest.map (·.closure) := by
  rw [Ideal.closures, h.frames]
  rfl

theorem arrives (h : i'.Running Γ { f with ip := n } rest p a t below) (hfinished : Γ.unfinished = none)
    (hadmits : Admits (Sheet.shapeAt none a) n t) : i'.Sound Γ :=
  ⟨hfinished, _, _, _, _, _, _, h, hadmits⟩

theorem stays (h : i.Running Γ f rest p a s below) (h' : i'.Running Γ' { f with ip := n } rest p a t below)
    (hfirsts : Γ'.firsts = Γ.firsts) : Γ.Turn Γ' i i' :=
  .stays (by rw [h.closures, h'.closures]) hfirsts

def Done (Γ : Facts) (i : Ideal) (op : Opcode) (name : Option Bytes) (f : Activation) (i' : Ideal) : Prop :=
  ∃ Γ', i'.Sound Γ' ∧ Γ.Turn Γ' i i' ∧ Γ.Keeps Γ' i.objects.length ∧
    Γ'.lineage = Γ.lineage.after (.of op name (some f.closure) (i.top? 0) (i.top? 1) (i'.top? 0)) ∧
    Γ'.bodies = Γ.bodies

theorem done (h : i.Running Γ f rest p a s below) (hfinished : Γ.unfinished = none) {name : Option Bytes}
    (hop : op ≠ .closure ∧ op ≠ .inherit ∧ op ≠ .method)
    (h' : i'.Running Γ { f with ip := n } rest p a t below) (hadmits : Admits (Sheet.shapeAt none a) n t) :
    Done Γ i op name f i' := by
  refine ⟨Γ, h'.arrives hfinished hadmits, h.stays h' rfl, .of_eq rfl rfl rfl, ?_, rfl⟩
  obtain ⟨h₁, h₂, h₃⟩ := hop
  cases op <;> first | rfl | contradiction

theorem done_call (h : i.Running Γ f rest p a s below) (hfinished : Γ.unfinished = none) {name : Option Bytes}
    (hop : op = .call ∨ op = .invoke ∨ op = .superInvoke)
    (h' : Called Γ { f with ip := n } rest p a slots below i')
    (hadmits : Admits (Sheet.shapeAt none a) n ⟨{} :: slots, none⟩) : Done Γ i op name f i' := by
  have hidle {made : Option Nat} : Deed.of op name (some f.closure) (i.top? 0) (i.top? 1) made = .idle := by
    rcases hop with rfl | rfl | rfl <;> rfl
  rcases h' with h' | ⟨v, c, q, b, h'⟩
  · refine ⟨Γ, h'.arrives hfinished hadmits, h.stays h' rfl, .of_eq rfl rfl rfl, ?_, rfl⟩
    rw [hidle]
    rfl
  · refine ⟨Γ.called v, ⟨hfinished, _, _, _, _, _, _, h', ?_⟩, .enters (c := c) ?_ rfl, .of_eq rfl rfl rfl, ?_, rfl⟩
    · obtain ⟨e, he, hwithin⟩ := h'.knows.certified.fits.enters
      exact ⟨e, he, hwithin⟩
    · rw [h'.closures, h.closures]
      rfl
    · rw [hidle]
      rfl

theorem done_closure {name : Option Bytes} (h : i.Running Γ f rest p a s below)
    (h' : ∃ Γ' m, i'.stack.reverse[0]? = some (.object m) ∧ Γ'.lineage = Γ.lineage.after (.makes m f.closure) ∧
      Γ'.unfinished = none ∧ Γ'.firsts = Γ.firsts ∧ Γ'.declaring = Γ.declaring ∧ Γ'.bodies = Γ.bodies ∧
      i'.Running Γ' { f with ip := n } rest p a t below)
    (hadmits : Admits (Sheet.shapeAt none a) n t) : Done Γ i .closure name f i' := by
  obtain ⟨Γ', m, htop, hlineage, hfinished, hfirsts, hdeclaring, hbodies, h'⟩ := h'
  refine ⟨Γ', h'.arrives hfinished hadmits, h.stays h' hfirsts, .of_eq hdeclaring (by rw [hlineage]; rfl)
    (by rw [hlineage]; rfl), ?_, hbodies⟩
  rw [hlineage, show i'.top? 0 = some m from congrArg (·.bind Val.address?) htop]
  rfl

theorem nameAt {k : Nat} {name : Bytes} (h : i.Running Γ f rest p a s below)
    (hk : (Γ.listing f.closure).signature.Names k name) (hlt : k < 256) (hb : p.Ahead f.ip (Operand.byte k).bytes) :
    p.nameAt f.ip = some name := by
  obtain ⟨lit, hlit, hmade⟩ := forall₂_getElem?_left h.knows.certified.constants hk
  cases hmade
  have hnat : k.toUInt8.toNat = k := Nat.mod_eq_of_lt hlt
  rw [Prototype.nameAt, hb.head]
  dsimp only [Option.bind_eq_bind, Option.bind_some]
  rw [hnat, hlit]
  rfl

section

variable {k j : Nat} {held : Bool} {content : Content} {name : Option Bytes} {body : ClassBody} {m : Lambda Stmt}
  {todo : List (Lambda Stmt)} {d : Underway} {e : Listing Item}

theorem effect_body (h : i.Running Γ f rest p a ⟨slots, some d⟩ below) (hfinished : Γ.unfinished = none)
    (hk : (Γ.listing f.closure).constants[k]? = some (.function e)) (hpending : d.pending = false)
    (hprovides : List.Forall₂ ((Γ.listing f.closure).signature.Provides ⟨⟨.closure k, false⟩ :: slots, some d⟩)
      e.origins e.marks)
    (hfits : (Operand.closure k e.origins).Fits) (hb : p.Ahead f.ip (Operand.closure k e.origins).bytes)
    (hadmits : Admits (Sheet.shapeAt none a) (f.ip + (Operand.closure k e.origins).size)
      ⟨⟨.closure k, false⟩ :: slots, some { d with pending := true }⟩) :
    Safe i (execute .closure) fun _ => Done Γ i .closure (p.nameAt f.ip) f := by
  obtain ⟨c, hd⟩ := h.declares
  have hprovides' : List.Forall₂ ((Γ.listing f.closure).signature.Provides
      ⟨⟨.closure k, false⟩ :: slots, some { d with pending := true }⟩) e.origins e.marks :=
    hprovides.imp fun _ _ hp => ⟨hp.variable_, fun hm => (hp.super hm).trans (by simp)⟩
  have hlisting : (Γ.make i.objects.length f.closure e (some i.objects.length)).listing f.closure =
      Γ.listing f.closure := Function.update_of_ne (Nat.ne_of_lt h.knows.closure.lt) _ _
  exact (h.makeClosure (x := ⟨.closure k, false⟩) hk hfits.1 hfits.2 hb hprovides' hfinished (hd.idle hpending)
    (.inr rfl) (fun r => ⟨c, hd.make h.typed.genuine r f.closure e⟩)
    ⟨_, e, rfl, rfl, hlisting ▸ hk, Function.update_self ..⟩
    rfl).imp fun _ _ h' => h.done_closure h' hadmits

theorem effect_class (h : i.Running Γ f rest p a ⟨slots, none⟩ below) (hfinished : Γ.unfinished = none)
    (hk : (Γ.listing f.closure).signature.Names k body.name) (hlisted : body ∈ (Γ.listing f.closure).classes)
    (hcalm : ∀ x ∈ slots, x.Calm) (hlt : k < 256) (hb : p.Ahead f.ip (Operand.byte k).bytes)
    (hadmits : Admits (Sheet.shapeAt none a) (f.ip + 1)
      ⟨⟨.own, false⟩ :: slots, some { stage := .fresh, body, todo := body.methods }⟩) :
    Safe i (execute .class_) fun _ => Done Γ i .class_ (p.nameAt f.ip) f := by
  refine (h.makeClass hcalm hk hlisted hlt hb).imp fun _ i' h' => ?_
  refine ⟨_, h'.arrives hfinished hadmits, h.stays h' rfl, fun c hc _ => ⟨fun hnew => ?_, rfl, rfl⟩, rfl, rfl⟩
  exact Nat.ne_of_gt hc (Option.some.inj hnew)

theorem effect_inherit (h : i.Running Γ f rest p a
      ⟨⟨.own, false⟩ :: ⟨content, false⟩ :: slots, some { global := name, stage := .fresh, body, todo }⟩ below)
    (hfinished : Γ.unfinished = none) (hslots : ∀ x ∈ slots, x.Calm ∨ x.content = .own)
    (hadmits : Admits (Sheet.shapeAt none a) f.ip
      ⟨⟨.superclass, false⟩ :: slots, some { global := name, stage := .heir, body, todo }⟩) :
    Safe i (execute .inherit) fun _ => Done Γ i .inherit (p.nameAt f.ip) f := by
  obtain ⟨v, -, hv, c, rfl, hdeclaring⟩ := h.peek (d := 0) rfl
  refine (h.inherit hslots).imp ?_
  rintro _ i' ⟨c', parent, htop, hsecond, h'⟩
  obtain rfl : c = c' := Val.object.inj (Option.some.inj (hv.symm.trans htop))
  refine ⟨_, h'.arrives (n := f.ip) hfinished hadmits, h.stays h' rfl, fun b _ hb => ⟨hb, rfl, ?_⟩, ?_, rfl⟩
  · refine Function.update_of_ne ?_ _ _
    rintro rfl
    exact hb hdeclaring
  rw [top?, top?, htop, hsecond]
  rfl

theorem effect_method (h : i.Running Γ f rest p a
      ⟨⟨.closure j, false⟩ :: ⟨.own, held⟩ :: slots, some { d with pending := true }⟩ below)
    (hfinished : Γ.unfinished = none) (hk : (Γ.listing f.closure).signature.Names k m.name)
    (hj : (Γ.listing f.closure).constants[j]? = some (.function e)) (hrenders : e.Renders m)
    (hkind : m.name = "init" → e.kind = .initializer) (hfresh : d.stage ≠ .fresh) (hidle : d.pending = false)
    (htodo : d.todo = m :: todo) (hslots : ∀ x ∈ slots, ∀ c, x.content ≠ .closure c) (hlt : k < 256)
    (hb : p.Ahead f.ip (Operand.byte k).bytes)
    (hadmits : Admits (Sheet.shapeAt none a) (f.ip + 1) ⟨⟨.own, held⟩ :: slots, some { d with todo }⟩) :
    Safe i (execute .method) fun _ => Done Γ i .method (p.nameAt f.ip) f := by
  obtain ⟨v, -, hv, c, rfl, hdeclaring⟩ := h.peek (d := 1) rfl
  refine (h.defineMethod hk hlt hb hj hrenders hkind hfresh hidle htodo hslots).imp ?_
  rintro _ i' ⟨c', closure, htop, hsecond, h'⟩
  obtain rfl : c = c' := Val.object.inj (Option.some.inj (hv.symm.trans hsecond))
  refine ⟨_, h'.arrives hfinished hadmits, h.stays h' rfl, fun b _ hb => ⟨hb, ?_, rfl⟩, ?_, rfl⟩
  · refine Function.update_of_ne ?_ _ _
    rintro rfl
    exact hb hdeclaring
  rw [top?, top?, htop, hsecond, h.nameAt hk hlt hb]
  rfl

end

theorem effect {γ : Signature} (h : i.Running Γ f rest p a s below) (hγ : (Γ.listing f.closure).signature = γ)
    (hfinished : Γ.unfinished = none) (heffect : Effect γ s op operand t) (hfits : operand.Fits)
    (hb : p.Ahead f.ip operand.bytes) (hadmits : Admits (Sheet.shapeAt none a) (f.ip + operand.size) t) :
    Safe i (execute op) fun _ => Done Γ i op (p.nameAt f.ip) f := by
  subst hγ
  have hdone {act : IdealM Unit} {n : Nat} (hop : op ≠ .closure ∧ op ≠ .inherit ∧ op ≠ .method)
      (hsafe : Safe i act fun _ i' => i'.Running Γ { f with ip := f.ip + n } rest p a t below)
      (hn : n = operand.size) : Safe i act fun _ => Done Γ i op (p.nameAt f.ip) f := by
    subst hn
    exact hsafe.imp fun _ _ h' => h.done hfinished hop h' hadmits
  cases heffect with
  | number hk => exact hdone (by decide) (h.constant hk (by rintro _ ⟨⟩) hfits hb) rfl
  | string hk => exact hdone (by decide) (h.constant hk (by rintro _ ⟨⟩) hfits hb) rfl
  | @literal slots known _ hop =>
    simp only [List.mem_cons, List.not_mem_nil, or_false] at hop
    have hpush (v : Val) : Safe i (IdealM.push v) fun _ i' => i'.Running Γ f rest p a ⟨{} :: slots, known⟩ below :=
      h.safe_push (x := {}) trivial fun _ h' => h'
    rcases hop with rfl | rfl | rfl
    · exact hdone (n := 0) (by decide) (hpush .nil) rfl
    · exact hdone (n := 0) (by decide) (hpush (.bool true)) rfl
    · exact hdone (n := 0) (by decide) (hpush (.bool false)) rfl
  | pop =>
    obtain ⟨v, hpop, -, -, hpopped⟩ := h.pop rfl
    exact hdone (n := 0) (by decide) (.step hpop hpopped) rfl
  | complete hstage hidle htodo hheir hslots =>
    refine (h.complete hidle htodo hheir hslots).imp fun _ i' h' => ?_
    exact ⟨_, h'.arrives (n := f.ip) hfinished hadmits, h.stays h' rfl, fun _ _ _ => ⟨by rintro ⟨⟩, rfl, rfl⟩, rfl, rfl⟩
  | closeUpvalue hslots => exact hdone (n := 0) (by decide) (h.closeTop hslots) rfl
  | getLocal hx => exact hdone (by decide) (h.getLocal hx hfits hb) rfl
  | receiver hx => exact hdone (by decide) (h.getFirst hx hb) rfl
  | setLocal hx => exact hdone (by decide) (h.setLocal hx hfits hb) rfl
  | getGlobal hk hc => exact hdone (by decide) (h.getGlobal hk hfits hc hb) rfl
  | defineGlobal hk => exact hdone (by decide) (h.defineGlobal hk hfits hb) rfl
  | defineClass hk => exact hdone (by decide) (h.defineClass hk hfits hb) rfl
  | setGlobal hk => exact hdone (by decide) (h.assignGlobal hk hfits hb) rfl
  | getUpvalue hm hc => exact hdone (by decide) (h.getUpvalue hm hc hfits hb) rfl
  | setUpvalue hm hcalm => exact hdone (by decide) (h.setUpvalue hm hcalm hfits hb) rfl
  | getProperty hk => exact hdone (by decide) (h.getProperty hk hfits hb) rfl
  | setProperty hk => exact hdone (by decide) (h.setProperty hk hfits hb) rfl
  | getSuper hk => exact hdone (by decide) (h.getSuper hk hfits hb) rfl
  | unary hop =>
    simp only [List.mem_cons, List.not_mem_nil, or_false] at hop
    rcases hop with rfl | rfl
    · exact hdone (n := 0) (by decide) h.not_ rfl
    · exact hdone (n := 0) (by decide) h.negate rfl
  | binary hop =>
    simp only [List.mem_cons, List.not_mem_nil, or_false] at hop
    have hnumeric (result : Float → Float → Val) := h.numeric result
    rcases hop with rfl | rfl | rfl | rfl | rfl | rfl | rfl
    · exact hdone (n := 0) (by decide) h.equal rfl
    · exact hdone (n := 0) (by decide) (hnumeric _) rfl
    · exact hdone (n := 0) (by decide) (hnumeric _) rfl
    · exact hdone (n := 0) (by decide) h.add rfl
    · exact hdone (n := 0) (by decide) (hnumeric _) rfl
    · exact hdone (n := 0) (by decide) (hnumeric _) rfl
    · exact hdone (n := 0) (by decide) (hnumeric _) rfl
  | print => exact hdone (n := 0) (by decide) h.print rfl
  | call hargs hfree hcalm =>
    exact (h.callTop hargs hfree hcalm hfinished hfits hb hadmits).imp fun _ _ h' =>
      h.done_call hfinished (.inl rfl) h' hadmits
  | invoke hk hargs hfree hcalm =>
    exact (h.invokeTop hargs hfree hcalm hfinished hk hfits.1 hfits.2 hb hadmits).imp fun _ _ h' =>
      h.done_call hfinished (.inr (.inl rfl)) h' hadmits
  | superInvoke hk hargs hfree hcalm =>
    exact (h.superInvoke hargs hfree hcalm hfinished hk hfits.1 hfits.2 hb hadmits).imp fun _ _ h' =>
      h.done_call hfinished (.inr (.inr rfl)) h' hadmits
  | @closure slots _ g held hk hprovides =>
    have hother := Facts.bodyHome_other (c := f.closure) h.declares (by simp)
    have hdeclares (r : Routine) : (Γ.make i.objects.length f.closure g none).Declares (i.objects ++ [Obj.closure r])
        i.globals none := ⟨h.declares.1, rfl⟩
    exact (h.makeClosure (x := ⟨.any, held⟩) hk hfits.1 hfits.2 hb hprovides hfinished h.declares.2 (.inl hother)
      hdeclares trivial rfl).imp fun _ _ h' => h.done_closure h' hadmits
  | body hk hpending hprovides => exact h.effect_body hfinished hk hpending hprovides hfits hb hadmits
  | class_ hk hlisted hcalm => exact h.effect_class hfinished hk hlisted hcalm hfits hb hadmits
  | inherit hslots => exact h.effect_inherit hfinished hslots hadmits
  | method hk hj hrenders hkind hfresh hidle htodo hslots =>
    exact h.effect_method hfinished hk hj hrenders hkind hfresh hidle htodo hslots hfits hb hadmits

theorem goes {next : List (Nat × Shape)} (h : i.Running Γ f rest p a s below) (hfinished : Γ.unfinished = none)
    (hgoes : Goes (Γ.listing f.closure).signature s n (.instr op operand) next) (hip : f.ip = n + 1)
    (hreturn : op ≠ .return_) (hfits : operand.Fits) (hb : p.Ahead f.ip operand.bytes)
    (hnext : ∀ r ∈ next, Admits (Sheet.shapeAt none a) r.1 r.2) :
    Safe i (execute op) fun _ => Done Γ i op (p.nameAt f.ip) f := by
  have hadmitted {m : Nat} {t : Shape} (hr : (m, t) ∈ next) := h.knows.certified.admitted (hnext _ hr)
  cases hgoes with
  | effect heffect =>
    refine h.effect rfl hfinished heffect hfits hb ?_
    have := hnext _ (.head _)
    rwa [← Nat.add_assoc, ← hip] at this
  | @jump distance =>
    have hplace : n + 3 + distance = f.ip + 2 + distance := by omega
    obtain ⟨-, hlt, -⟩ := hadmitted (.head _)
    exact (h.jumpTop hfits hb (by omega)).imp fun _ _ h' =>
      h.done hfinished (by decide) h' (hplace ▸ hnext _ (.head _))
  | @jumpIfFalse distance hslots =>
    have hplace : n + 3 = f.ip + 2 := by omega
    have hplace' : n + 3 + distance = f.ip + 2 + distance := by omega
    obtain ⟨-, hlt, -⟩ := hadmitted (.tail _ (.head _))
    refine (h.jumpIfFalse hslots hfits hb (by omega)).imp fun _ _ h' => ?_
    rcases h' with h' | h'
    · exact h.done hfinished (by decide) h' (hplace ▸ hnext _ (.head _))
    · exact h.done hfinished (by decide) h' (hplace' ▸ hnext _ (.tail _ (.head _)))
  | @loop distance hback =>
    have hplace : n + 3 - distance = f.ip + 2 - distance := by omega
    exact (h.jumpBack hfits hb (by omega)).imp fun _ _ h' =>
      h.done hfinished (by decide) h' (hplace ▸ hnext _ (.head _))
  | return_ => exact absurd rfl hreturn

theorem returns {c : Content} {x : Slot} {name : Option Bytes}
    (h : i.Running Γ f rest p a ⟨⟨c, false⟩ :: x :: slots, none⟩ below)
    (hfinished : Γ.unfinished = none) (hkind : (Γ.listing f.closure).kind = .initializer → c = .receiver) :
    Safe i IdealM.leave fun more i' => (more = false ∧ i'.frames = [] ∧ i'.openUpvalues = []) ∨
      (more = true ∧ Done Γ i .return_ name f i') := by
  obtain ⟨v, htop, hholds, hsafe⟩ := h.leave
  refine hsafe.imp fun more i' h' => ?_
  rcases h' with ⟨hmore, -, hframes, hopened⟩ | ⟨hmore, g, rest', q, b, slots', below', rfl, h', htop', hadmits⟩
  · exact .inl ⟨hmore, hframes, hopened⟩
  · refine .inr ⟨hmore, Γ.returned, ⟨hfinished, _, _, _, _, _, _, h', hadmits⟩, ?_, .of_eq rfl rfl rfl, rfl, rfl⟩
    obtain ⟨w, hfirst, -⟩ := h.first
    refine .leaves (c := f.closure) (v := w) ?_ (List.eq_cons_of_mem_head? hfirst) fun hinit => ?_
    · rw [h.closures, h'.closures]
      rfl
    · have hreceiver := hkind hinit
      subst hreceiver
      rw [htop', ← Option.some.inj (hholds.symm.trans hfirst)]

end Ideal.Running

structure Facts.Leads (Γ : Facts) (i : Ideal) (Γ' : Facts) (i' : Ideal) : Prop where
  sound : i'.Sound Γ'
  turn : Γ.Turn Γ' i i'
  keeps : Γ.Keeps Γ' i.objects.length
  lineage : Γ'.lineage = Γ.lineage.after (i.deed i')
  bodies : Γ'.bodies = Γ.bodies

namespace Ideal

variable {Γ : Facts} {i : Ideal}

open IdealM

theorem instr?_eq {f : Activation} {rest : List Activation} {p : Prototype} {op : Opcode} {bytes : List UInt8}
    (hf : i.frames = f :: rest) (hp : CodeAt i.objects f.closure p) (hb : p.Ahead f.ip (op.toByte :: bytes)) :
    i.instr? = some (op, p.nameAt (f.ip + 1)) := by
  obtain ⟨r, hr, rfl⟩ := hp
  simp only [instr?, hf, List.head?_cons, Option.bind_eq_bind, Option.bind_some, hr, hb.head, Opcode.ofByte?_toByte]
  rfl

structure Facing (Γ : Facts) (i : Ideal) (f : Activation) (rest : List Activation) (p : Prototype) (a : Sheet)
    (s t : Shape) (below : List Slot) (op : Opcode) (operand : Operand) : Prop where
  running : i.Running Γ f rest p a s below
  within : s.Within t
  goes : ∃ next, Goes (Γ.listing f.closure).signature t f.ip (.instr op operand) next ∧
    ∀ r ∈ next, Admits (Sheet.shapeAt none a) r.1 r.2
  fits : operand.Fits
  ahead : p.Ahead f.ip (op.toByte :: operand.bytes)
  instrAt : p.instrAt f.ip = some (op, operand)

theorem Sound.facing (h : i.Sound Γ) : Γ.unfinished = none ∧ ∃ f rest p a s t below op operand,
    i.Facing Γ f rest p a s t below op operand := by
  obtain ⟨hfinished, f, rest, p, a, s, below, h, t, ht, hwithin⟩ := h
  obtain ⟨before, op, operand, after, ha, hsize⟩ := Sheet.shapeAt_instr ht
  have hgoes := h.knows.certified.goes ha
  have hinstr := h.knows.certified.instrAt ha
  obtain ⟨hfits, hcode⟩ := h.knows.certified.bytes_at ha
  rw [hsize] at hgoes hcode hinstr
  refine ⟨hfinished, f, rest, p, a, s, t, below, op, operand, h, hwithin, hgoes, hfits, ?_, hinstr⟩
  rw [Prototype.Ahead, hcode]
  exact List.prefix_append (op.toByte :: operand.bytes) _

theorem Facing.instr? {f : Activation} {rest : List Activation} {p : Prototype} {a : Sheet} {s t : Shape}
    {below : List Slot} {op : Opcode} {operand : Operand} (h : i.Facing Γ f rest p a s t below op operand) :
    i.instr? = some (op, p.nameAt (f.ip + 1)) :=
  instr?_eq h.running.frames h.running.knows.closure h.ahead

theorem Sound.step (h : i.Sound Γ) : Safe i IdealM.step fun more i' =>
    (more = false ∧ i'.frames = [] ∧ i'.openUpvalues = []) ∨
      (more = true ∧ ∃ Γ', Γ.Leads i Γ' i') := by
  obtain ⟨hfinished, f, rest, p, a, s, t, below, op, operand, hfacing⟩ := h.facing
  obtain ⟨h, hwithin, ⟨next, hgoes, hnext⟩, hfits, hb, -⟩ := id hfacing
  obtain ⟨hread, hrunning⟩ := (h.within hwithin).readByte hb
  have hdeed (i' : Ideal) : i.deed i' =
      .of op (p.nameAt (f.ip + 1)) (some f.closure) (i.top? 0) (i.top? 1) (i'.top? 0) := by
    rw [deed, hfacing.instr?, h.closures]
    rfl
  have hclosures : (i.moved (f.ip + 1)).closures = i.closures := by
    rw [h.closures, hrunning.closures]
  have hdone {i' : Ideal} (h' : Running.Done Γ (i.moved (f.ip + 1)) op (p.nameAt (f.ip + 1)) { f with ip := f.ip + 1 }
      i') :
      ∃ Γ', Γ.Leads i Γ' i' := by
    obtain ⟨Γ', hsound, hturn, hkeeps, hlineage, hbodies⟩ := h'
    refine ⟨Γ', hsound, ?_, hkeeps, hlineage.trans (by rw [hdeed]; rfl), hbodies⟩
    cases hturn with
    | stays hc hfirsts => exact .stays (hc.trans hclosures) hfirsts
    | enters hc hfirsts => exact .enters (hclosures ▸ hc) hfirsts
    | leaves hc hfirsts hinit => exact .leaves (hclosures ▸ hc) hfirsts hinit
  unfold IdealM.step
  refine .step hread ?_
  rw [Opcode.ofByte?_toByte]
  by_cases hreturn : op = .return_
  · subst hreturn
    cases hgoes with
    | effect heffect =>
      cases heffect with
      | literal hop => simp at hop
      | unary hop => simp at hop
      | binary hop => simp at hop
    | return_ hs hkind hscript =>
      subst hs
      exact (hrunning.returns hfinished hkind).imp fun more i' h' => h'.imp_right (.imp_right hdone)
  · have hsafe := hrunning.goes hfinished hgoes rfl hreturn hfits hb.tail hnext
    have : Safe (i.moved (f.ip + 1)) (do execute op; return true) fun more i' =>
        (more = false ∧ i'.frames = [] ∧ i'.openUpvalues = []) ∨
          (more = true ∧ ∃ Γ', Γ.Leads i Γ' i') :=
      .bind hsafe fun _ i' h' => .pure (.inr ⟨rfl, hdone h'⟩)
    cases op <;> first | exact this | exact absurd rfl hreturn

end Ideal

end Lox

namespace Lox

def Facts.script (f : Listing Item) (c : Nat) : Facts where
  listing _ := f
  mark _ := .plain
  superclass _ := 0
  home _ := none
  bodies := f.classes
  firsts := [.object c]

namespace Facts

variable {f : Listing Item} {c : Nat} {objects : List (Obj Routine)}

theorem genuine_script (h : ∀ (k : Nat) name methods, objects[k]? ≠ some (.class_ name methods)) :
    (script f c).Genuine objects where
  parents _ _ := nofun
  owners _ _ _ := nofun
  makers _ _ := nofun
  tables k name methods hk := absurd hk (h k name methods)
  bodies k name methods hk := absurd hk (h k name methods)

end Facts

structure Listing.Script (f : Listing Item) (p : Prototype) : Prop where
  verified : f.Verified
  arity : f.arity = 0
  origins : f.origins = []
  made : Item.Made (.function f) (.function p)

theorem Listing.Script.prototype {f : Listing Item} {p : Prototype} (h : f.Script p) :
    p.arity = 0 ∧ p.captures = 0 := by
  obtain ⟨-, harity, horigins, hmade⟩ := h
  cases hmade with
  | function harity' _ hcaptures =>
    rw [horigins] at hcaptures
    exact ⟨harity'.trans harity, hcaptures⟩

namespace Ideal

variable {Γ : Facts} {i : Ideal} {f : Listing Item} {p : Prototype}

open IdealM

structure Idle (i : Ideal) : Prop where
  stack : i.stack = []
  frames : i.frames = []
  upvalues : i.upvalues = []
  opened : i.openUpvalues = []
  natives : ∀ o ∈ i.objects, ∃ g ∈ EmbedM.builtins, o = .native g

theorem idle_new (maxFrames : Nat) (clock : Clock) : (Ideal.new maxFrames clock).Idle where
  stack := rfl
  frames := rfl
  upvalues := rfl
  opened := rfl
  natives o ho := by
    obtain ⟨g, hg, rfl⟩ := List.mem_map.mp ho
    exact ⟨g, hg, rfl⟩

def launched (i : Ideal) (p : Prototype) : Ideal :=
  { i with
    objects := i.objects ++ [.closure ⟨p, []⟩]
    stack := [.object i.objects.length]
    frames := [⟨i.objects.length, 0, 0⟩] }

theorem Idle.sound (h : i.Idle) (hf : f.Script p) : (i.launched p).Sound (.script f i.objects.length) := by
  obtain ⟨hmarks, ⟨a, hlines, hfits⟩, -⟩ := id hf.verified
  have hcertified : Certified f p a := ⟨hlines, hmarks, hfits, hf.made⟩
  have hentry : f.entry = ⟨[⟨.first, true⟩], none⟩ := by
    rw [Listing.entry, hf.arity]
    rfl
  have hclosure : (i.launched p).objects[i.objects.length]? = some (.closure ⟨p, []⟩) := by simp [launched]
  have hobject {k : Nat} {o : Obj Routine} (ho : (i.launched p).objects[k]? = some o) :
      (∃ g ∈ EmbedM.builtins, o = .native g) ∨ o = .closure ⟨p, []⟩ := by
    rcases List.mem_append.mp (List.mem_of_getElem? ho) with hold | hnew
    · exact .inl (h.natives o hold)
    · exact .inr (List.mem_singleton.mp hnew)
  refine ⟨rfl, ⟨i.objects.length, 0, 0⟩, [], p, a, f.entry, [], ?_, hfits.enters⟩
  refine ⟨rfl, .nil, ⟨⟨_, hclosure, rfl⟩, hcertified, by rintro ⟨⟩⟩, rfl, Nat.zero_le _, ?_, rfl, rfl⟩
  rw [hentry]
  refine ⟨.cons trivial .nil, .cons ⟨rfl, rfl⟩ .nil, fun k o ho => ?_, Facts.genuine_script fun k name methods hk => ?_,
    fun u v hu => ?_, fun n u => ?_, ?_, fun n u hu => ?_⟩
  · rcases hobject ho with ⟨g, hg, rfl⟩ | rfl
    · exact hg
    · refine ⟨hf.verified, hf.made, List.Subset.refl _, ?_, fun j u hj => ?_, fun _ => (by rintro ⟨⟩)⟩
      · show 0 = f.marks.length
        rw [hmarks, hf.origins]
        rfl
      · cases hj
  · rcases hobject hk with ⟨g, -, hg⟩ | hg <;> cases hg
  · rw [show (i.launched p).upvalues = [] from h.upvalues] at hu
    cases hu
  · rw [show (i.launched p).upvalues = [] from h.upvalues, show (i.launched p).openUpvalues = [] from h.opened]
    exact ⟨by rintro ⟨⟩, by rintro ⟨⟩⟩
  · rw [show (i.launched p).openUpvalues = [] from h.opened]
    exact .nil
  · rw [show (i.launched p).openUpvalues = [] from h.opened] at hu
    cases hu

theorem raise_idle {α : Type} {post : α → Ideal → Prop} (h : i.frames = []) (q : RuntimeProblem) :
    Safe i (raise q) post := by
  unfold raise
  refine .step rfl (.step (a := []) (by rw [h]; rfl) ?_)
  trivial

theorem Idle.enter (h : i.Idle) (hf : f.Script p) : Safe i (IdealM.enter p) fun _ i' => i' = i.launched p := by
  obtain ⟨harity, hcaptures⟩ := hf.prototype
  have hmax : ¬HeapM.maxCaptures < (p.captures : Int) := by
    unfold HeapM.maxCaptures
    omega
  let j : Ideal := { i with objects := i.objects ++ [Obj.closure ⟨p, []⟩], stack := [Val.object i.objects.length] }
  have hpush : IdealM.push (.object i.objects.length) { i with objects := i.objects ++ [Obj.closure ⟨p, []⟩] } =
      .ok () j := by
    show EStateM.Result.ok () ({ i with objects := i.objects ++ _, stack := i.stack ++ _ } : Ideal) = _
    rw [h.stack]
    rfl
  have hcall : Safe j (IdealM.call i.objects.length 0) fun _ i' => i' = i.launched p := by
    have hclosure : j.objects[i.objects.length]? = some (.closure ⟨p, []⟩) := by simp [j]
    have hframes : j.frames = [] := h.frames
    have hslot : calleeSlot 0 j = .ok 0 j := by
      unfold calleeSlot
      rw [runBind]
      show (if j.floor + 0 < 1 then _ else _ : IdealM Nat) j = _
      rw [if_pos (by rw [Ideal.floor, hframes]; decide)]
      rfl
    unfold IdealM.call
    refine .step (closureAt_eq hclosure) ?_
    rw [if_neg (show ¬0 ≠ p.arity from fun hne => hne harity.symm)]
    refine .step rfl (.step hslot ?_)
    split
    · have hraise : Safe j (raise .stackOverflow : IdealM Unit) fun _ _ => False := raise_idle hframes _
      exact .bind hraise fun _ _ => False.elim
    · refine .of_eq rfl ?_
      show ({ j with frames := _ :: j.frames } : Ideal) = _
      rw [hframes]
      rfl
  unfold IdealM.enter
  rw [if_neg hmax, hcaptures]
  exact .step rfl (.step hpush hcall)

theorem Sound.run (h : i.Sound Γ) (fuel : Nat) : Safe i (IdealM.run fuel) fun more i' =>
    (more = false ∧ i'.frames = [] ∧ i'.openUpvalues = []) ∨ (more = true ∧ ∃ Γ', i'.Sound Γ') := by
  induction fuel generalizing Γ i with
  | zero => exact .pure (.inr ⟨rfl, Γ, h⟩)
  | succ fuel ih =>
    unfold IdealM.run
    refine .bind h.step ?_
    rintro more i' (⟨rfl, hframes, hopened⟩ | ⟨rfl, Γ', h', -⟩)
    · exact .pure (.inl ⟨rfl, hframes, hopened⟩)
    · exact ih h'

end Ideal

end Lox
