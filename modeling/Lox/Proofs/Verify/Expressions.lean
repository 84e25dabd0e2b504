import Lox.Proofs.Source.Steady
import Lox.Proofs.Verify.Suit

namespace Lox

structure Plan.Open (g : Plan) : Prop where
  sound : SoundLevels g.levels
  super : g.classes.head? = some true → HasSuper g.levels

structure Plan.Ready (g : Plan) : Prop extends g.Open where
  idle : g.Idle

theorem Plan.Open.grown {g g' : Plan} (h : g.Open) (hg : g.Grown g') : g'.Open where
  sound := hg.sound
  super hc := (h.super (hg.classes ▸ hc)).grown hg.levels

theorem Plan.Ready.grown {g g' : Plan} (h : g.Ready) (hg : g.Grown g') : g'.Ready where
  toOpen := h.toOpen.grown hg
  idle := h.idle.grown hg.levels

def Plain (temps : List Slot) : Prop :=
  ∀ a ∈ temps, a.content = .any

theorem Plain.replicate {temps : List Slot} (h : Plain temps) (n : Nat) :
    Plain (pushed n ++ temps) := by
  intro a ha
  rcases List.mem_append.mp ha with ha | ha
  · rw [List.eq_of_mem_replicate ha]
  · exact h a ha

structure Pushes (n : Nat) (g g' : Plan) (lines : List Line) : Prop where
  grown : g.Grown g'
  flows : ∀ γ slots, Suits γ slots g'.levels → ∀ temps, Plain temps →
    Flows γ lines ⟨temps ++ slots, none⟩ (some ⟨pushed n ++ (temps ++ slots), none⟩)

namespace Pushes

variable {n m : Nat} {g g' g'' : Plan} {a b ops : List Line}

theorem later (h : Pushes n g g' a) (hg : g'.Grown g'') : Pushes n g g'' a where
  grown := h.grown.trans hg
  flows γ slots hsuits := h.flows γ slots (hsuits.back h.grown.sound hg)

theorem earlier (h : Pushes n g' g'' a) (hg : g.Grown g') : Pushes n g g'' a where
  grown := hg.trans h.grown
  flows := h.flows

theorem append (ha : Pushes n g g' a) (hb : Pushes m g' g'' b) : Pushes (m + n) g g'' (a ++ b) where
  grown := ha.grown.trans hb.grown
  flows γ slots hsuits temps htemps := by
    have hfirst := (ha.later hb.grown).flows γ slots hsuits temps htemps
    have hsecond := hb.flows γ slots hsuits (pushed n ++ temps) (htemps.replicate n)
    rw [List.append_assoc] at hsecond
    have hsplit : pushed (m + n) = pushed m ++ pushed n := List.replicate_add ..
    rw [hsplit, List.append_assoc]
    exact hfirst.append hsecond

theorem then_ (ha : Pushes n g g' a) (hops : ∀ γ slots, Suits γ slots g'.levels → ∀ temps, Plain temps →
    Flows γ ops ⟨pushed n ++ (temps ++ slots), none⟩
      (some ⟨pushed m ++ (temps ++ slots), none⟩)) : Pushes m g g' (a ++ ops) where
  grown := ha.grown
  flows γ slots hsuits temps htemps :=
    (ha.flows γ slots hsuits temps htemps).append (hops γ slots hsuits temps htemps)

theorem calm {γ : Signature} {slots temps : List Slot} (hsuits : Suits γ slots g.levels)
    (hidle : g.Idle) (htemps : Plain temps) : ∀ a ∈ temps ++ slots, a.Calm := by
  intro a ha
  rcases List.mem_append.mp ha with ha | ha
  · exact .inl (htemps a ha)
  · exact hsuits.calm hidle a ha

end Pushes

theorem mem_replicate_unheld (n : Nat) : ∀ a ∈ pushed n, a.held = false := by
  intro a ha
  rw [List.eq_of_mem_replicate ha]

section

variable {g g' g'' : Plan} {lines : List Line} {name : Bytes} {k : Nat}

theorem pushes_nil (h : SoundLevels g.levels) : Pushes 0 g g [] where
  grown := .refl h
  flows _ _ _ _ _ := .nil (.refl _)

theorem pushes_literal {op : Opcode} (hop : op ∈ [Opcode.nil, .true, .false]) (h : SoundLevels g.levels) :
    Pushes 1 g g [.instr op .none] where
  grown := .refl h
  flows _ _ _ _ _ := .effect (.literal hop)

theorem pushes_read {place : Place} (h : PlanM.resolve name g = some (place, g'))
    (hs : SoundLevels g.levels) : Pushes 1 g g' [place.read] where
  grown := (PlanM.resolve_meets h hs).1
  flows γ slots hsuits temps _ := ((PlanM.resolve_meets h hs).2 γ slots hsuits temps none).1

theorem names_of_constant (h : PlanM.constant (.string name) g = some (k, g')) (hs : SoundLevels g.levels) :
    g.Grown g' ∧ ∀ γ slots, Suits γ slots g'.levels → γ.Names k name :=
  PlanM.constant_meets h hs nofun

theorem binary_flows {γ : Signature} {slots : List Slot} (op : BinaryOp) :
    Flows γ (op.code.map (.instr · .none)) ⟨{} :: {} :: slots, none⟩ (some ⟨{} :: slots, none⟩) := by
  have hone {o : Opcode} (ho : o ∈ [Opcode.equal, .greater, .less, .add, .subtract, .multiply, .divide]) :
      Flows γ [.instr o .none] ⟨{} :: {} :: slots, none⟩ (some ⟨{} :: slots, none⟩) :=
    .effect (.binary ho)
  have hnot : Flows γ [.instr .not .none] ⟨{} :: slots, none⟩ (some ⟨{} :: slots, none⟩) :=
    .effect (.unary (.head _))
  cases op with
  | equal | greater | less | add | subtract | multiply | divide => exact hone (by simp)
  | notEqual | greaterEqual | lessEqual =>
    exact Flows.append (a := [.instr _ .none]) (hone (by simp)) hnot

end

def Expr.PushesCode (e : Expr) : Prop :=
  ∀ ⦃g g' : Plan⦄ ⦃lines : List Line⦄, e.code g = some (lines, g') → g.Ready → Pushes 1 g g' lines

def Expr.PushesCodeOfAll (es : List Expr) : Prop :=
  ∀ ⦃g g' : Plan⦄ ⦃lines : List Line⦄, Expr.codeOfAll es g = some (lines, g') → g.Ready →
    Pushes es.length g g' lines

section

variable {value operand left right callee object : Expr} {arguments : List Expr}

theorem Expr.pushesCode_number (text : Bytes) : Expr.PushesCode (.number text) := by
  intro g g' lines h hg
  have hs := hg.sound
  rw [Expr.code] at h
  split at h
  · cases h
  · obtain ⟨k, g₁, hk, h⟩ := bind_some h
    cases h
    obtain ⟨hgrown, hconst⟩ := PlanM.constant_meets hk hs nofun
    exact ⟨hgrown, fun γ slots hsuits _ _ => .effect (.number (hconst γ slots hsuits))⟩

theorem Expr.pushesCode_string (chars : Bytes) : Expr.PushesCode (.string chars) := by
  intro g g' lines h hg
  have hs := hg.sound
  rw [Expr.code] at h
  obtain ⟨k, g₁, hk, h⟩ := bind_some h
  cases h
  obtain ⟨hgrown, hconst⟩ := names_of_constant hk hs
  exact ⟨hgrown, fun γ slots hsuits _ _ => .effect (.string (hconst γ slots hsuits))⟩

theorem Expr.pushesCode_variable (name : Bytes) : Expr.PushesCode (.variable_ name) := by
  intro g g' lines h hg
  have hs := hg.sound
  rw [Expr.code] at h
  obtain ⟨place, g₁, hp, h⟩ := bind_some h
  cases h
  exact pushes_read hp hs

theorem Expr.pushesCode_assign (name : Bytes) (ihvalue : value.PushesCode) :
    Expr.PushesCode (.assign name value) := by
  intro g g' lines h hg
  have hs := hg.sound
  rw [Expr.code] at h
  split at h
  · cases h
  · rename_i hname
    obtain ⟨place, g₁, hp, h⟩ := bind_some h
    obtain ⟨a, g₂, ha, h⟩ := bind_some h
    cases h
    obtain ⟨hgrown, hplace⟩ := PlanM.resolve_meets hp hs
    have hvalue := ihvalue ha (hg.grown hgrown)
    refine (hvalue.earlier hgrown).then_ fun γ slots hsuits temps htemps => ?_
    exact (hplace γ slots (hsuits.back hgrown.sound hvalue.grown) temps none).2.2 hg.idle hname htemps {} rfl

theorem Expr.pushesCode_unary (op : UnaryOp) (ihoperand : operand.PushesCode) :
    Expr.PushesCode (.unary op operand) := by
  intro g g' lines h hg
  rw [Expr.code] at h
  obtain ⟨a, g₁, ha, h⟩ := bind_some h
  cases h
  refine (ihoperand ha hg).then_ fun γ slots _ temps _ => .effect (.unary ?_)
  cases op <;> simp [UnaryOp.code]

theorem Expr.pushesCode_binary (op : BinaryOp) (ihleft : left.PushesCode) (ihright : right.PushesCode) :
    Expr.PushesCode (.binary op left right) := by
  intro g g' lines h hg
  rw [Expr.code] at h
  obtain ⟨a, g₁, ha, h⟩ := bind_some h
  obtain ⟨b, g₂, hb, h⟩ := bind_some h
  cases h
  have hleft := ihleft ha hg
  have hright := ihright hb (hg.grown hleft.grown)
  exact (hleft.append hright).then_ fun γ slots _ temps _ => binary_flows op

theorem Expr.pushesCode_and (ihleft : left.PushesCode) (ihright : right.PushesCode) :
    Expr.PushesCode (.and_ left right) := by
  intro g g' lines h hg
  rw [Expr.code] at h
  obtain ⟨a, g₁, ha, h⟩ := bind_some h
  obtain ⟨b, g₂, hb, h⟩ := bind_some h
  cases h
  have hleft := ihleft ha hg
  have hright := ihright hb (hg.grown hleft.grown)
  rw [List.append_assoc]
  refine (hleft.later hright.grown).then_ fun γ slots hsuits temps htemps => ?_
  have hpop : Flows γ [.instr .pop .none] ⟨{} :: (temps ++ slots), none⟩ (some ⟨temps ++ slots, none⟩) :=
    .effect .pop
  have := (hpop.append (hright.flows γ slots hsuits temps htemps)).skip (by simp) (.refl _)
  simpa [Line.size, Operand.size] using this

theorem Expr.pushesCode_or (ihleft : left.PushesCode) (ihright : right.PushesCode) :
    Expr.PushesCode (.or_ left right) := by
  intro g g' lines h hg
  rw [Expr.code] at h
  obtain ⟨a, g₁, ha, h⟩ := bind_some h
  obtain ⟨b, g₂, hb, h⟩ := bind_some h
  cases h
  have hleft := ihleft ha hg
  have hright := ihright hb (hg.grown hleft.grown)
  rw [List.append_assoc]
  refine (hleft.later hright.grown).then_ fun γ slots hsuits temps htemps => ?_
  have hpop : Flows γ [.instr .pop .none] ⟨{} :: (temps ++ slots), none⟩ (some ⟨temps ++ slots, none⟩) :=
    .effect .pop
  have hstay : Flows γ [] ⟨{} :: (temps ++ slots), none⟩ (some ⟨{} :: (temps ++ slots), none⟩) :=
    .nil (.refl _)
  have := Flows.branch (by simp) hstay (hpop.append (hright.flows γ slots hsuits temps htemps))
  simpa [Line.size, Operand.size] using this

theorem Expr.pushesCode_call (ihcallee : callee.PushesCode) (iharguments : Expr.PushesCodeOfAll arguments) :
    Expr.PushesCode (.call callee arguments) := by
  intro g g' lines h hg
  rw [Expr.code] at h
  obtain ⟨a, g₁, ha, h⟩ := bind_some h
  obtain ⟨b, g₂, hb, h⟩ := bind_some h
  cases h
  have hcallee := ihcallee ha hg
  have harguments := iharguments hb (hg.grown hcallee.grown)
  refine (hcallee.append harguments).then_ fun γ slots hsuits temps htemps => ?_
  have hidle := ((hg.grown hcallee.grown).grown harguments.grown).idle
  exact .effect (.call (by simp) (mem_replicate_unheld _) (Pushes.calm hsuits hidle htemps))

theorem Expr.pushesCode_get (name : Bytes) (ihobject : object.PushesCode) : Expr.PushesCode (.get object name) := by
  intro g g' lines h hg
  rw [Expr.code] at h
  obtain ⟨a, g₁, ha, h⟩ := bind_some h
  obtain ⟨k, g₂, hk, h⟩ := bind_some h
  cases h
  have hobject := ihobject ha hg
  obtain ⟨hgrown, hconst⟩ := names_of_constant hk hobject.grown.sound
  refine (hobject.later hgrown).then_ fun γ slots hsuits temps _ => ?_
  exact .effect (.getProperty (hconst γ slots hsuits))

theorem Expr.pushesCode_set (name : Bytes) (ihobject : object.PushesCode) (ihvalue : value.PushesCode) :
    Expr.PushesCode (.set object name value) := by
  intro g g' lines h hg
  rw [Expr.code] at h
  obtain ⟨a, g₁, ha, h⟩ := bind_some h
  obtain ⟨k, g₂, hk, h⟩ := bind_some h
  obtain ⟨b, g₃, hb, h⟩ := bind_some h
  cases h
  have hobject := ihobject ha hg
  obtain ⟨hgrown, hconst⟩ := names_of_constant hk hobject.grown.sound
  have hvalue := ihvalue hb ((hg.grown hobject.grown).grown hgrown)
  refine ((hobject.later hgrown).append hvalue).then_ fun γ slots hsuits temps _ => ?_
  exact .effect (.setProperty (hconst γ slots (hsuits.back hgrown.sound hvalue.grown)))

theorem Expr.pushesCode_invoke (name : Bytes) (ihobject : object.PushesCode)
    (iharguments : Expr.PushesCodeOfAll arguments) : Expr.PushesCode (.invoke object name arguments) := by
  intro g g' lines h hg
  rw [Expr.code] at h
  obtain ⟨a, g₁, ha, h⟩ := bind_some h
  obtain ⟨k, g₂, hk, h⟩ := bind_some h
  obtain ⟨b, g₃, hb, h⟩ := bind_some h
  cases h
  have hobject := ihobject ha hg
  obtain ⟨hgrown, hconst⟩ := names_of_constant hk hobject.grown.sound
  have hready := (hg.grown hobject.grown).grown hgrown
  have harguments := iharguments hb hready
  refine ((hobject.later hgrown).append harguments).then_ fun γ slots hsuits temps htemps => ?_
  exact .effect (.invoke (hconst γ slots (hsuits.back hgrown.sound harguments.grown)) (by simp)
    (mem_replicate_unheld _) (Pushes.calm hsuits (hready.grown harguments.grown).idle htemps))

theorem Expr.pushesCode_this : Expr.PushesCode .this_ := by
  intro g g' lines h hg
  have hs := hg.sound
  rw [Expr.code] at h
  obtain ⟨classes, g₁, hc, h⟩ := bind_some h
  cases hc
  split at h
  · cases h
  · obtain ⟨place, g₂, hp, h⟩ := bind_some h
    cases h
    exact pushes_read hp hs

theorem Expr.pushesCode_super (name : Bytes) : Expr.PushesCode (.super_ name) := by
  intro g g' lines h hg
  have hs := hg.sound
  rw [Expr.code] at h
  obtain ⟨classes, g₁, hc, h⟩ := bind_some h
  cases hc
  split at h
  · rename_i hinherits
    obtain ⟨k, g₂, hk, h⟩ := bind_some h
    obtain ⟨this, g₃, hthis, h⟩ := bind_some h
    obtain ⟨superclass, g₄, hsuperclass, h⟩ := bind_some h
    cases h
    obtain ⟨hgrown, hconst⟩ := names_of_constant hk hs
    have hreceiver := pushes_read hthis hgrown.sound
    have hready := (hg.grown hgrown).grown hreceiver.grown
    obtain ⟨hgrown', hplace⟩ := PlanM.resolve_meets hsuperclass hready.sound
    refine ((hreceiver.later hgrown').earlier hgrown).then_ fun γ slots hsuits temps _ => ?_
    have hclass := (hplace γ slots hsuits ({} :: temps) none).2.1 hready.idle rfl
      (((hg.super hinherits).grown hgrown.levels).grown hreceiver.grown.levels)
    have hname := hconst γ slots (hsuits.back hgrown.sound (hreceiver.grown.trans hgrown'))
    exact hclass.append (.effect (.getSuper hname))
  · cases h

theorem Expr.pushesCode_superInvoke (name : Bytes) (iharguments : Expr.PushesCodeOfAll arguments) :
    Expr.PushesCode (.superInvoke name arguments) := by
  intro g g' lines h hg
  have hs := hg.sound
  rw [Expr.code] at h
  obtain ⟨classes, g₁, hc, h⟩ := bind_some h
  cases hc
  split at h
  · rename_i hinherits
    obtain ⟨k, g₂, hk, h⟩ := bind_some h
    obtain ⟨this, g₃, hthis, h⟩ := bind_some h
    obtain ⟨a, g₄, ha, h⟩ := bind_some h
    obtain ⟨superclass, g₅, hsuperclass, h⟩ := bind_some h
    cases h
    obtain ⟨hgrown, hconst⟩ := names_of_constant hk hs
    have hreceiver := pushes_read hthis hgrown.sound
    have hready := (hg.grown hgrown).grown hreceiver.grown
    have harguments := iharguments ha hready
    have hready' := hready.grown harguments.grown
    obtain ⟨hgrown', hplace⟩ := PlanM.resolve_meets hsuperclass hready'.sound
    have hall := ((hreceiver.append harguments).later hgrown').earlier hgrown
    show Pushes 1 g g' (([this.read] ++ a) ++ [superclass.read, _])
    refine hall.then_ fun γ slots hsuits temps htemps => ?_
    have hclass := (hplace γ slots hsuits (pushed (arguments.length + 1) ++ temps) none).2.1
      hready'.idle rfl
      ((((hg.super hinherits).grown hgrown.levels).grown hreceiver.grown.levels).grown
        harguments.grown.levels)
    rw [List.append_assoc] at hclass
    have hname := hconst γ slots (hsuits.back hgrown.sound
      ((hreceiver.grown.trans harguments.grown).trans hgrown'))
    exact hclass.append (.effect (.superInvoke hname (by simp) (mem_replicate_unheld _)
      (Pushes.calm hsuits (hready'.grown hgrown').idle htemps)))
  · cases h

end

mutual

theorem Expr.pushes_code (e : Expr) : e.PushesCode := by
  cases e with
  | nil | true_ | false_ =>
    intro g g' lines h hg
    rw [Expr.code] at h
    cases h
    exact pushes_literal (by simp) hg.sound
  | number text => exact Expr.pushesCode_number text
  | string chars => exact Expr.pushesCode_string chars
  | variable_ name => exact Expr.pushesCode_variable name
  | assign name value => exact Expr.pushesCode_assign name value.pushes_code
  | unary op operand => exact Expr.pushesCode_unary op operand.pushes_code
  | binary op left right => exact Expr.pushesCode_binary op left.pushes_code right.pushes_code
  | and_ left right => exact Expr.pushesCode_and left.pushes_code right.pushes_code
  | or_ left right => exact Expr.pushesCode_or left.pushes_code right.pushes_code
  | call callee arguments => exact Expr.pushesCode_call callee.pushes_code (Expr.pushes_codeOfAll arguments)
  | get object name => exact Expr.pushesCode_get name object.pushes_code
  | set object name value => exact Expr.pushesCode_set name object.pushes_code value.pushes_code
  | invoke object name arguments =>
    exact Expr.pushesCode_invoke name object.pushes_code (Expr.pushes_codeOfAll arguments)
  | this_ => exact Expr.pushesCode_this
  | super_ name => exact Expr.pushesCode_super name
  | superInvoke name arguments => exact Expr.pushesCode_superInvoke name (Expr.pushes_codeOfAll arguments)

theorem Expr.pushes_codeOfAll (es : List Expr) : Expr.PushesCodeOfAll es := by
  intro g g' lines h hg
  cases es with
  | nil =>
    rw [Expr.codeOfAll] at h
    cases h
    exact pushes_nil hg.sound
  | cons e es =>
    rw [Expr.codeOfAll] at h
    obtain ⟨a, g₁, ha, h⟩ := bind_some h
    obtain ⟨b, g₂, hb, h⟩ := bind_some h
    cases h
    have hfirst := e.pushes_code ha hg
    exact hfirst.append (Expr.pushes_codeOfAll es hb (hg.grown hfirst.grown))

end

end Lox
