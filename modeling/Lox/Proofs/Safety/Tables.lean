import Lox.Proofs.Ideal.Growth
import Lox.Proofs.Safety.Chronicle

namespace Lox

open Heap HeapView MachineM

def Opcode.observing : List Opcode :=
  [.setLocal, .setGlobal, .setUpvalue, .getProperty, .setProperty, .getSuper, .call, .invoke, .superInvoke, .class_,
    .return_]

namespace Machine

variable (m : Machine)

/-- A class that the machine can reach, from the stack or the active calls, through variables, fields or whatever
else there is. -/
def HasClass (l : Loc) : Prop :=
  m.heap.Reach (m.heap.origins (roots m)) l ∧ ∃ c, classAt l m.heap = .ok c

/-- The next instruction needs a value of the program. -/
def Observes : Prop :=
  ∃ op name, m.instr? = some (op, name) ∧ op ∈ Opcode.observing

def Runs (l : Loc) (d : Lambda Stmt) : Prop :=
  ∃ g q, g.Renders d ∧ Item.Made (.function g) (.function q) ∧
    (m.heap.Alive l → ∃ c, closureAt l m.heap = .ok c ∧ m.heap.Spells c.function q)

/-- A class is as its declaration says. Its own methods are those of the body, in their order. -/
structure Fulfils (L : Lineage) (k : Loc) (b : ClassBody) : Prop where
  name : m.heap.Alive k → ∃ c, classAt k m.heap = .ok c ∧ c.name.chars = b.name
  superclass : (L.parent k).isSome = b.superclass.isSome
  methods : List.Forall₂ (fun d x => x.1 = d.name ∧ m.Runs x.2 d) b.methods (L.own k).reverse

end Machine

theorem Goes.known_of_observing {γ : Signature} {s : Shape} {offset : Nat} {op : Opcode} {operand : Operand}
    {next : List (Nat × Shape)} (h : Goes γ s offset (.instr op operand) next) (hop : op ∈ Opcode.observing) :
    s.known = none := by
  cases h with
  | effect he =>
    cases he with
    | literal hop' | unary hop' | binary hop' =>
      simp only [List.mem_cons, List.not_mem_nil, or_false] at hop'
      rcases hop' with rfl | rfl | rfl | rfl | rfl | rfl | rfl <;> simp [Opcode.observing] at hop
    | setLocal | setGlobal | setUpvalue | getProperty | setProperty | getSuper | call | invoke | superInvoke | class_ =>
      rfl
    | _ => simp [Opcode.observing] at hop
  | return_ hs =>
    rw [hs]
  | _ => simp [Opcode.observing] at hop

namespace Facts

variable {Γ Γ' Γ'' : Facts} {n n' : Nat} {objects : List (Obj Routine)}

theorem Keeps.refl (Γ : Facts) (n : Nat) : Γ.Keeps Γ n :=
  .of_eq rfl rfl rfl

theorem Keeps.trans (h : Γ.Keeps Γ' n) (h' : Γ'.Keeps Γ'' n') (hn : n ≤ n') : Γ.Keeps Γ'' n := by
  intro k hk hd
  obtain ⟨hd', hown, hparent⟩ := h k hk hd
  obtain ⟨hd'', hown', hparent'⟩ := h' k (Nat.lt_of_lt_of_le hk hn) hd'
  exact ⟨hd'', hown'.trans hown, hparent'.trans hparent⟩

theorem Keeps.nearest (h : Γ.Keeps Γ' objects.length) (hidle : Γ.declaring = none) (hg : Γ.Genuine objects) {k m : Nat}
    {name : Bytes} (hk : k < objects.length) : Γ'.lineage.Nearest k name m ↔ Γ.lineage.Nearest k name m := by
  have hkeep {k : Nat} (hk : k < objects.length) : Γ'.lineage.own k = Γ.lineage.own k ∧
      Γ'.lineage.parent k = Γ.lineage.parent k :=
    (h k hk (by rw [hidle]; nofun)).2
  have habove {k p : Nat} (hp : Γ.lineage.parent k = some p) : p < objects.length :=
    (hg.parents k p hp).2.1.lt
  constructor
  · intro hm
    induction hm with
    | own hm => exact .own ((hkeep hk).1 ▸ hm)
    | inherited hnone hp _ ih =>
      rw [(hkeep hk).1] at hnone
      rw [(hkeep hk).2] at hp
      exact .inherited hnone hp (ih (habove hp))
  · intro hm
    induction hm with
    | own hm => exact .own ((hkeep hk).1.symm ▸ hm)
    | inherited hnone hp _ ih =>
      exact .inherited ((hkeep hk).1.symm ▸ hnone) ((hkeep hk).2.symm ▸ hp) (ih (habove hp))

theorem Genuine.classAt_of_chain (hg : Γ.Genuine objects) {k p : Nat} (hc : Γ.lineage.Chain k p)
    (hk : ClassAt objects k) : ClassAt objects p := by
  induction hc with
  | self => exact hk
  | above hp _ ih => exact ih (hg.parents _ _ hp).2.1

theorem Genuine.home_of_belongs (hg : Γ.Genuine objects) (hpending : Γ.pending = none) {c k : Nat}
    (hb : Γ.lineage.Belongs c k) (hk : (Γ.lineage.parent k).isSome) : Γ.home c = some k := by
  induction hb with
  | method hmem => exact (hg.owners _ _ _ hmem).2.2.2.2 hk
  | made hmaker hmethod _ ih =>
    rcases (hg.makers _ _ hmaker).2.2 with hhome | ⟨k', name, hmem⟩ | hnew
    · rw [hhome, ih hk]
    · exact absurd hmem (hmethod k' name)
    · rw [hpending] at hnew
      cases hnew

end Facts

namespace Mirrors

variable {w : World} {m : Machine} {i : Ideal} {l : Loc}

theorem method? (hm : Mirrors w m i) {a : Nat} {className : Bytes} {methods : Dict Nat} (ha : m.heap.Alive l)
    (hw : w.Numbers l a) (hx : i.objects[a]? = some (.class_ className methods)) (name : Bytes) :
    Option.Rel w.Numbers (m.method? l name) (methods name) := by
  have hsound := hm.pictures.sound
  obtain ⟨c, hc, -, htable, -⟩ := hm.pictures.class_ ha hw hx
  unfold Machine.method? Machine.entry? Machine.binding?
  rw [hc]
  simp only [Except.toOption, Option.bind_eq_bind, Option.bind_some]
  cases hs : m.heap.strings.findText? name name.hash with
  | none =>
    -- a method would have a name that is a string of the heap
    cases hmethod : methods name with
    | none => exact .none
    | some k =>
      obtain ⟨key, v, hb, hchars⟩ := htable.total name (.object k) (by rw [asValues, hmethod]; rfl)
      have hfound := (hsound.findText?_eq_some_iff name).mpr ⟨htable.keys key v hb, hchars⟩
      rw [hs] at hfound
      cases hfound
  | some s =>
    obtain ⟨hstring, hchars⟩ := (hsound.findText?_eq_some_iff name).mp hs
    have hget := htable.get?_eq hsound hstring
    rw [hchars, asValues] at hget
    cases hmethod : methods name with
    | none =>
      rw [hmethod] at hget
      rw [Option.bind_some, show c.methods.get? s = none from hget]
      exact .none
    | some k =>
      rw [hmethod] at hget
      obtain ⟨v, hv, ⟨k', hn, hk⟩, -⟩ := hget
      simp only [Option.bind_some, hv, hn.locOfValue]
      exact .some hk

theorem class_of_hasClass (hm : Mirrors w m i) (hl : m.HasClass l) : ∃ a className methods, m.heap.Alive l ∧
    w.Numbers l a ∧ i.objects[a]? = some (.class_ className methods) := by
  obtain ⟨hreach, c, hc⟩ := hl
  obtain ⟨o, ho, hbody⟩ := classAt_eq_ok.mp hc
  have halive := (hm.pictures.intact hm.rooted).alive hreach
  rcases hm.known_of_reach hreach with ⟨t, ht⟩ | ⟨chars, hash, o', ho', -, hbody'⟩
  · obtain ⟨o', ho', -, hd⟩ := hm.pictures.body halive ht
    rw [ho] at ho'
    cases ho'
    rw [hbody] at hd
    cases hd with
    | class_ hobj => exact ⟨_, _, _, halive, ht, hobj⟩
  · rw [ho] at ho'
    cases ho'
    rw [hbody] at hbody'
    cases hbody'

theorem hasClass_of_top (hm : Mirrors w m i) {d a : Nat} (htop : m.top? d = some l) (ha : w.Numbers l a)
    (hclass : ClassAt i.objects a) : m.HasClass l := by
  obtain ⟨v, hv, hl⟩ := Machine.value_of_top? htop
  have hmem : v ∈ m.values := List.mem_reverse.mp (List.mem_of_getElem? hv)
  obtain ⟨x, -, hx⟩ := forall₂_mem hm.stack hmem
  have hobject : v.isObject = true := by
    by_contra hplain
    rw [locOfValue_plain (Bool.eq_false_iff.mpr hplain)] at hl
    cases hl
  obtain ⟨l', hn, -⟩ := hx.names hobject
  obtain rfl := Except.ok.inj (hn.locOfValue.symm.trans hl)
  obtain ⟨className, methods, hobj⟩ := hclass
  obtain ⟨c, hc, -⟩ := hm.pictures.class_ (hn.alive hm.pictures.sound.consistent) ha hobj
  exact ⟨.root (hm.value_root hmem) hn.leads, c, hc⟩

end Mirrors

namespace Stands

variable {m m' x y z : Machine} {L L' : Lineage} {w w' : World} {i i' : Ideal} {Γ Γ' : Facts} {l c k p : Loc}
  {before after rest : List Machine} {source name : Bytes}

theorem nearest_iff (h : Stands m L w i Γ) {a b : Nat} (hl : w.Numbers l a) (hk : w.Numbers k b) :
    L.Nearest l name k ↔ Γ.lineage.Nearest a name b := by
  have hR := h.mirrors.biUnique
  constructor
  · intro hm
    obtain ⟨b', hb, hm'⟩ := h.story.nearest hR hl hm
    rwa [hR.2 hk hb]
  · intro hm
    obtain ⟨k', hk', hm'⟩ := h.story.flip.nearest ⟨fun _ _ _ ha hb => hR.2 ha hb, fun _ _ _ ha hb => hR.1 ha hb⟩ hl hm
    rwa [hR.1 hk hk']

theorem genuine (h : Stands m L w i Γ) : Γ.Genuine i.objects := by
  obtain ⟨-, f, rest, p, a, s, below, hrunning, -⟩ := h.sound
  exact hrunning.typed.genuine

theorem method?_iff (h : Stands m L w i Γ) (hl : m.HasClass l) : m.method? l name = some k ↔ L.Nearest l name k := by
  obtain ⟨a, className, methods, halive, ha, hobj⟩ := h.mirrors.class_of_hasClass hl
  have hmethod := h.mirrors.method? halive ha hobj name
  have htable := h.genuine.tables a className methods hobj name
  have hR := h.mirrors.biUnique
  constructor
  · intro hk
    rw [hk] at hmethod
    generalize methods name = o at hmethod htable
    cases hmethod with
    | @some _ b hb => exact (h.nearest_iff ha hb).mpr ((htable b).mp rfl)
  · intro hk
    obtain ⟨b, hb, hnearest⟩ := h.story.nearest hR ha hk
    rw [(htable b).mpr hnearest] at hmethod
    generalize m.method? l name = o at hmethod
    cases hmethod with
    | some hk' => rw [hR.1 hk' hb]

theorem runs (h : Stands m L w i Γ) {a : Nat} {d : Lambda Stmt} (hl : w.Numbers l a) (hclosure : ClosureAt i.objects a)
    (hrenders : (Γ.listing a).Renders d) : m.Runs l d := by
  obtain ⟨-, f, rest, p, s, t, below, hrunning, -⟩ := h.sound
  obtain ⟨p, r, hr, rfl⟩ := hclosure
  obtain ⟨-, hmade, -⟩ := hrunning.typed.objects a _ hr
  refine ⟨Γ.listing a, r.prototype, hrenders, hmade, fun halive => ?_⟩
  obtain ⟨c, hc, hfunction, hlive, -⟩ := h.mirrors.pictures.closure halive hl hr
  exact ⟨c, hc, h.mirrors.pictures.spells r.prototype c.function hlive hfunction⟩

theorem fulfils (h : Stands m L w i Γ) (hidle : Γ.declaring = none) (hl : m.HasClass l) (hc : L.Chain l k) :
    ∃ b ∈ Γ.bodies, m.Fulfils L k b := by
  have hR := h.mirrors.biUnique
  obtain ⟨a, className, methods, -, ha, hobj⟩ := h.mirrors.class_of_hasClass hl
  obtain ⟨a', ha', hchain⟩ := h.story.chain hR hc ha
  obtain ⟨name', methods', hclass⟩ := h.genuine.classAt_of_chain hchain ⟨className, methods, hobj⟩
  obtain ⟨b, hb⟩ := h.genuine.bodies a' name' methods' hclass (by rw [hidle]; exact nofun)
  refine ⟨b, hb.listed, fun halive => ?_, ?_, ?_⟩
  · obtain ⟨c, hc, hname, -⟩ := h.mirrors.pictures.class_ halive ha' hclass
    exact ⟨c, hc, hname.trans hb.name⟩
  · rw [← hb.superclass]
    have hparent := h.story.parent hR ha'
    generalize L.parent k = o, Γ.lineage.parent a' = o' at hparent
    cases hparent <;> rfl
  · have hown : List.Forall₂ (fun x y => ClosureAt i.objects x.2 ∧ x.1 = y.1 ∧ w.Numbers y.2 x.2)
        (Γ.lineage.own a').reverse (L.own k).reverse :=
      forall₂_imp_mem (List.rel_reverse (Lineage.namesakes_flip (h.story.body hR ha'))) fun x y hx hxy =>
        ⟨(h.genuine.owners a' x.1 x.2 (List.mem_reverse.mp hx)).2.1, hxy⟩
    refine forall₂_chain (fun {d x y} hd hxy => ?_) hb.methods hown
    obtain ⟨hclosure, hname, hnumber⟩ := hxy
    exact ⟨hname.symm.trans hd.1, h.runs hnumber hclosure hd.2⟩

theorem idle_of_observes (h : Stands m L w i Γ) (hm : m.Observes) : Γ.declaring = none ∧ Γ.pending = none := by
  obtain ⟨op, name, hinstr, hop⟩ := hm
  obtain ⟨-, f, rest, p, a, s, t, below, op', operand, hfacing⟩ := h.sound.facing
  rw [h.mirrors.instr? hfacing.running.frames hfacing.running.knows.closure, hfacing.instr?] at hinstr
  cases hinstr
  obtain ⟨next, hgoes, -⟩ := hfacing.goes
  have hknown := hfacing.within.known
  rw [hgoes.known_of_observing hop] at hknown
  have hdeclares := hfacing.running.declares
  generalize s.known = known at hknown hdeclares
  cases hknown
  exact hdeclares

theorem later (h : Stands x (Machine.story (x :: before)) w i Γ) (htrail : Machine.Trail m source (y :: rest))
    (hsplit : y :: rest = after ++ x :: before) : y.heap.Exhausted ∨ ∃ w' i' Γ', w.Extends w' ∧
      Stands y (Machine.story (y :: rest)) w' i' Γ' ∧ Γ.Keeps Γ' i.objects.length ∧
      i.objects.length ≤ i'.objects.length := by
  refine h.along (P := fun Γ' i' => Γ.Keeps Γ' i.objects.length ∧ i.objects.length ≤ i'.objects.length)
    ⟨.refl Γ _, Nat.le_refl _⟩ htrail hsplit ?_
  rintro u - w i₁ i₂ Γ₁ Γ₂ - hideal hleads ⟨hkeeps, hgrows⟩
  have hle := (inferInstance : IdealM.Grows IdealM.step).le i₁
  rw [hideal] at hle
  exact ⟨hkeeps.trans hleads.keeps hgrows, Nat.le_trans hgrows hle⟩

theorem top?_of_super (h : Stands y L w i Γ) {op : Opcode} {n : Option Bytes} (hinstr : y.instr? = some (op, n))
    (hop : op = .getSuper ∨ op = .superInvoke) (hc : y.innermost? = some c) (hb : L.Belongs c k)
    (hp : L.parent k = some p) : y.top? 0 = some p ∧ y.HasClass p := by
  have hR := h.mirrors.biUnique
  obtain ⟨-, hpending⟩ := h.idle_of_observes ⟨op, n, hinstr, by rcases hop with rfl | rfl <;> decide⟩
  obtain ⟨-, f, rest, q, sheet, s, t, below, op', operand, hfacing⟩ := h.sound.facing
  have hrunning := hfacing.running
  rw [h.mirrors.instr? hrunning.frames hrunning.knows.closure, hfacing.instr?] at hinstr
  cases hinstr
  -- what is on top
  obtain ⟨next, hgoes, -⟩ := hfacing.goes
  have hat := hrunning.within hfacing.within
  obtain ⟨v, hv, home, p', rfl, hhome, hparent⟩ : ∃ v, i.stack.reverse[0]? = some v ∧ Γ.Holds f.closure .parent v := by
    cases hgoes with
    | effect he =>
      cases he with
      | getSuper | superInvoke =>
        obtain ⟨v, -, hv, hholds⟩ := hat.peek (d := 0) rfl
        exact ⟨v, hv, hholds⟩
      | literal hop' | unary hop' | binary hop' => rcases hop with rfl | rfl <;> simp at hop'
      | _ => simp at hop
    | _ => simp at hop
  -- the class to which the code belongs
  obtain ⟨g, gs, hg, hsame, -⟩ := h.mirrors.frame hrunning.frames
  rw [Machine.innermost?, hg] at hc
  cases hc
  obtain ⟨c', k', hcc, hkk, hb'⟩ := h.story.belongs hR hb
  obtain rfl : c' = f.closure := hR.2 hcc hsame.closure
  have hparent' := h.story.parent hR hkk
  rw [hp] at hparent'
  generalize hk' : Γ.lineage.parent k' = o at hparent'
  cases hparent' with
  | @some _ p'' hpp =>
    have hhome' := h.genuine.home_of_belongs hpending hb' (by rw [hk']; rfl)
    obtain rfl : home = k' := Option.some.inj (hhome.symm.trans hhome')
    obtain rfl : p'' = p' := Option.some.inj (hk'.symm.trans hparent)
    have htop := h.mirrors.top? 0
    rw [show i.top? 0 = some p'' from congrArg (·.bind Val.address?) hv] at htop
    generalize htop' : y.top? 0 = o at htop
    cases htop with
    | some hl =>
      obtain rfl := hR.1 hl hpp
      exact ⟨rfl, h.mirrors.hasClass_of_top htop' hpp (h.genuine.parents home p'' hparent).2.1⟩

theorem stack_of_super (h : Stands y L w i Γ) {n : Option Bytes} (hinstr : y.instr? = some (.getSuper, n)) :
    (∃ f rest, i.frames = f :: rest) ∧ 2 ≤ i.stack.length := by
  obtain ⟨-, f, rest, q, sheet, s, t, below, op', operand, hfacing⟩ := h.sound.facing
  have hrunning := hfacing.running
  rw [h.mirrors.instr? hrunning.frames hrunning.knows.closure, hfacing.instr?] at hinstr
  cases hinstr
  refine ⟨⟨f, rest, hrunning.frames⟩, ?_⟩
  obtain ⟨next, hgoes, -⟩ := hfacing.goes
  have hlength := (hrunning.within hfacing.within).length_stack
  cases hgoes with
  | effect he =>
    cases he with
    | getSuper =>
      simp only [List.length_cons] at hlength
      omega
    | literal hop | unary hop | binary hop => simp at hop

theorem super_finds (h : Stands y L w i Γ) {op : Opcode} (hinstr : y.instr? = some (op, some name))
    (hop : op = .getSuper ∨ op = .superInvoke) (hp : y.HasClass p) (htop : y.top? 0 = some p)
    (hstep : MachineM.step y = .ok true z) : z.heap.Exhausted ∨ ∃ c, y.method? p name = some c ∧
      (op = .getSuper → z.bound? = some c) ∧ (op = .superInvoke → z.innermost? = some c) := by
  have hm := h.mirrors
  obtain ⟨u, hu, hloc⟩ := Machine.value_of_top? htop
  -- the class is taken off the stack
  have hpopped {y₁ y₂ : Machine} {l : Loc} (hpop : popClass y₁ = .ok l y₂) (hsame : ∃ calls, y₁ = { y with calls }) :
      l = p ∧ y₂ = { y₁ with sp := y₁.sp - 1 } := by
    obtain ⟨calls, rfl⟩ := hsame
    obtain ⟨vs, v, hvs, hl, rfl⟩ := popClass_eq_ok (m := { y with calls }) ⟨hm.filled.written, hm.filled.room⟩ hpop
    have hvalues : y.values = vs ++ [v] := hvs
    rw [hvalues] at hu
    simp only [List.reverse_append, List.reverse_singleton, List.singleton_append, List.getElem?_cons_zero,
      Option.some.injEq] at hu
    subst hu
    exact ⟨Except.ok.inj (hl.symm.trans hloc), rfl⟩
  obtain ⟨f, rest, fn, hex, hname, hstep'⟩ := step_eq hinstr (by rcases hop with rfl | rfl <;> decide)
  rw [hstep'] at hstep
  obtain ⟨⟨⟩, z', hexecute, hpure⟩ := bind_eq_ok hstep
  cases hpure
  have hex' := hex.jumpTo (f.ip + 1)
  have hread {s : Symbol} {y₂ : Machine} (hread : readName { y with calls := y.calls.jumpTo (f.ip + 1) } = .ok s y₂) :
      name = s.chars ∧ y.heap.IsString s.loc s.chars s.hash ∧
        y₂ = { y with calls := (y.calls.jumpTo (f.ip + 1)).jumpTo (f.ip + 1 + 1) } := by
    obtain ⟨hat, ⟨v, hsymbol⟩, rfl⟩ := readName_eq_ok hex' hread
    exact ⟨Option.some.inj (hname.trans hat), isString_of_asSymbol hm.pictures.sound.consistent hsymbol, rfl⟩
  obtain ⟨a, className, methods, halive, ha, hobj⟩ := hm.class_of_hasClass hp
  rcases hop with rfl | rfl
  · obtain ⟨⟨g, gs, hframes⟩, hlength⟩ := h.stack_of_super hinstr
    obtain ⟨s, y₂, hname', hrest⟩ := bind_eq_ok (show getSuper _ = .ok () z from hexecute)
    obtain ⟨rfl, hs, rfl⟩ := hread hname'
    obtain ⟨l, y₃, hpop, hbind⟩ := bind_eq_ok hrest
    obtain ⟨rfl, rfl⟩ := hpopped hpop ⟨_, rfl⟩
    have hm' := ((hm.jumpTo hframes (f.ip + 1)).jumpTo rfl (f.ip + 1 + 1)).take (n := y.sp - 1)
      (by rw [hm.sp_eq]; exact Nat.sub_le ..)
    refine (hm'.bindMethod_eq_ok (fun hnil => ?_) halive ha hobj hs hbind).imp_right ?_
    · have hlength := congrArg List.length hnil
      simp only [List.length_take, List.length_nil, hm.sp_eq] at hlength
      omega
    rintro ⟨c, hmethod, hbound⟩
    exact ⟨c, hmethod, fun _ => hbound, nofun⟩
  · obtain ⟨s, y₂, hname', hrest⟩ := bind_eq_ok (show superInvoke _ = .ok () z from hexecute)
    obtain ⟨rfl, hs, rfl⟩ := hread hname'
    obtain ⟨b, y₃, hbyte, hrest'⟩ := bind_eq_ok hrest
    obtain ⟨-, rfl⟩ := readByte_eq_ok (hex'.jumpTo (f.ip + 1 + 1)) hbyte
    obtain ⟨l, y₄, hpop, hinvoke⟩ := bind_eq_ok hrest'
    obtain ⟨rfl, rfl⟩ := hpopped hpop ⟨_, rfl⟩
    obtain ⟨c, v, k, hc, hv, hk, rfl⟩ := invokeFromClass_eq_ok hinvoke
    exact .inr ⟨k, hm.method?_eq hs hc hv hk, nofun, fun _ => rfl⟩

theorem method?_later {L' : Lineage} (h : Stands x L w i Γ) (h' : Stands y L' w' i' Γ') (hw : w.Extends w')
    (hkeeps : Γ.Keeps Γ' i.objects.length) (hx : x.Observes) (hl : x.HasClass l) (hl' : y.HasClass l) :
    y.method? l name = x.method? l name := by
  obtain ⟨a, className, methods, -, ha, hobj⟩ := h.mirrors.class_of_hasClass hl
  have hnearest {b : Nat} : Γ'.lineage.Nearest a name b ↔ Γ.lineage.Nearest a name b :=
    hkeeps.nearest (h.idle_of_observes hx).1 h.genuine (List.getElem?_eq_some_iff.mp hobj).1
  refine Option.ext fun k => ?_
  rw [h'.method?_iff hl', h.method?_iff hl]
  constructor
  · intro hk
    obtain ⟨b, hb, hk'⟩ := h'.story.nearest h'.mirrors.biUnique (hw _ _ ha) hk
    obtain ⟨k', hb', hk''⟩ := h.story.flip.nearest ⟨fun _ _ _ ha hb => h.mirrors.biUnique.2 ha hb,
      fun _ _ _ ha hb => h.mirrors.biUnique.1 ha hb⟩ ha (hnearest.mp hk')
    rwa [h'.mirrors.biUnique.1 hb (hw _ _ hb')]
  · intro hk
    obtain ⟨b, hb, hk'⟩ := h.story.nearest h.mirrors.biUnique ha hk
    exact (h'.nearest_iff (hw _ _ ha) (hw _ _ hb)).mpr (hnearest.mpr hk')

end Stands

def endsAtSuper : List Machine → Bool
  | y :: rest =>
    match MachineM.step y with
    | .ok true z => decide (y.heap.slots.size ≤ 2 ^ 32 ∧ z.heap.slots.size ≤ 2 ^ 32 ∧
        y.instr? = some (Opcode.superInvoke, some ("m" : Bytes)) ∧ y.innermost? = some 15 ∧
        (("m" : Bytes), 15) ∈ (Machine.story (y :: rest)).own 14 ∧ (Machine.story (y :: rest)).parent 14 = some 12)
    | _ => false
  | [] => false

end Lox
