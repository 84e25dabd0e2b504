import Lox.Proofs.Lexical.Traces

namespace Lox

open PlanM

section

variable {n m : Nat} {g g' g₁ g₂ g₃ : Plan} {l l' : Level} {ls ls' ls₁ ls₂ : List Level} {env : Env}
  {a b : List Line} {us vs : List Use} {name : Bytes} {v : VarName}

theorem holds_below {k : Nat} {u : Local} {locals : List Local} (hk : k < locals.length) :
    (u :: locals).reverse[k]? = locals.reverse[k]? := by
  rw [List.reverse_cons, List.getElem?_append_left (by simpa using hk)]

theorem heldAt_below {out k : Nat} {u : Local} (hl : l'.locals = u :: l.locals) (hk : HasSlot (l :: ls) out k) :
    heldAt (l' :: ls) out k = heldAt (l :: ls) out k := by
  cases out with
  | zero =>
    obtain ⟨q, hq, hk⟩ := hk
    cases hq
    rw [heldAt_zero, heldAt_zero, Level.holds, Level.holds, hl, holds_below hk]
  | succ out => rfl

theorem heldAt_newest {u : Local} (hl : l'.locals = u :: l.locals) :
    heldAt (l' :: ls) 0 l.locals.length = u.captured := by
  rw [heldAt_zero, Level.holds, hl, List.reverse_cons, List.getElem?_append_right (by simp)]
  simp

theorem Views.congr {χ : List (List Origin)} {κ : List Item} (h : Views (l' :: ls) χ κ)
    (hl : l'.origins = l.origins) (hc : l'.constants = l.constants) : Views (l :: ls) χ κ := by
  obtain ⟨horigins, hconstants⟩ := h
  cases horigins with
  | cons ho horigins =>
    refine ⟨.cons (hl ▸ ho) horigins, fun q hq => ?_⟩
    cases hq
    exact hc ▸ hconstants l' rfl

theorem distinct_locals (hl : l'.origins = l.origins) (hc : l'.constants = l.constants)
    (h : DistinctLevels (l :: ls)) : DistinctLevels (l' :: ls) := by
  refine distinct_of_origins (fun q hq => ?_) (by rw [List.map_cons, List.map_cons, hc]) h
  rcases List.mem_cons.mp hq with rfl | hq
  · rw [hl]
    exact (h l (.head _)).1
  · exact (h q (.tail _ hq)).1

theorem Env.Fits.outside (h : env.Fits (l :: ls)) (hzero : l.depth = 0) : env.inside = false := by
  cases h with
  | cons hn _ =>
    have hinside := hn.inside
    rw [hzero] at hinside
    exact hinside

theorem Env.Fits.deep (h : env.Fits (l :: ls)) (hdeep : 0 < l.depth) : env.inside = true := by
  cases h with
  | cons hn _ =>
    have hinside := hn.inside
    rw [decide_eq_true hdeep] at hinside
    exact hinside

theorem Env.declare_outside (h : env.inside = false) (v : VarName) : env.declare v = env := by
  cases env with
  | nil => rfl
  | cons n outer =>
    have hn : n.inside = false := h
    rw [Env.declare, hn]
    rfl

theorem Env.Fits.declare (h : env.Fits (l :: ls)) (hdeep : 0 < l.depth) (hv : v.Valid) {u : Local}
    (hu : u.name = v.name) (hl : l'.locals = u :: l.locals) (hkind : l'.kind = l.kind)
    (hdepth : l'.depth = l.depth) : (env.declare v).Fits (l' :: ls) ∧ (env.declare v).newest = l.locals.length := by
  have hinside := h.deep hdeep
  cases h with
  | @cons n _ outer _ hn houter =>
    have hn' : n.inside = true := hinside
    rw [Env.declare, hn', if_pos rfl]
    refine ⟨.cons ⟨hkind.trans hn.kind, ?_, ?_, ?_⟩ houter, ?_⟩
    · rw [hdepth]
      exact (decide_eq_true hdeep).symm
    · rw [hl, List.map_cons, hu, hn.names]
      rfl
    · exact List.forall_mem_cons.mpr ⟨hv, hn.valid⟩
    · rw [hn.slots]
      rfl

theorem traces_declared (hs : SoundLevels (l :: ls)) (hdeep : 0 < l.depth) (name : Bytes) :
    Traces 1 (l :: ls) ({ l with locals := ⟨name, some l.depth, false⟩ :: l.locals } :: ls) [] [] where
  adds := (initialized_meets name (g := ⟨l :: ls, []⟩) rfl hs hdeep (.refl (sound_pending name hs hdeep)) rfl).1
  tells _ _ _ := .nil
  held out k hk := by
    rw [capturesAny_nil, Bool.or_false]
    exact heldAt_below rfl hk
  distinct := distinct_locals rfl rfl

theorem traces_initialized (hs : SoundLevels (l :: ls)) (hdeep : 0 < l.depth) (name : Bytes)
    (ha : Traces 0 ({ l with locals := ⟨name, none, false⟩ :: l.locals } :: ls) (l' :: ls') a us) :
    Traces 1 (l :: ls) (initialized l' :: ls') a us ∧
      heldAt (initialized l' :: ls') 0 l.locals.length = Use.capturesAny 0 l.locals.length us ∧
      ∃ u kept, l'.locals = u :: kept ∧ (initialized l').locals = { u with depth := some l'.depth } :: kept := by
  let pending : Level := { l with locals := ⟨name, none, false⟩ :: l.locals }
  have hlevels : (⟨l' :: ls', []⟩ : Plan).levels = l' :: ls' := rfl
  obtain ⟨hadds, -⟩ := initialized_meets name (g := ⟨l :: ls, []⟩) rfl hs hdeep ha.adds.grown_of_zero hlevels
  obtain ⟨q, qs, hq, hgrown, -⟩ := ha.adds.levels rfl
  cases hq
  obtain ⟨u, kept, hlocals, -⟩ : ∃ u kept, l'.locals = u :: kept ∧ kept.length = l.locals.length := by
    have hlength := hgrown.locals.length_eq
    simp only [Level.under, List.drop_zero, List.length_cons] at hlength
    cases hl' : l'.locals with
    | nil => simp [hl'] at hlength
    | cons u kept => exact ⟨u, kept, rfl, by simpa [hl'] using hlength.symm⟩
  have hinit : (initialized l').locals = { u with depth := some l'.depth } :: kept := by
    simp only [initialized, hlocals]
  have hsame (out k : Nat) : heldAt (initialized l' :: ls') out k = heldAt (l' :: ls') out k := by
    cases out with
    | zero =>
      rw [heldAt_zero, heldAt_zero, Level.holds, Level.holds, hinit, hlocals, List.reverse_cons, List.reverse_cons,
        List.getElem?_append, List.getElem?_append]
      split
      · rfl
      · cases k - kept.reverse.length <;> rfl
    | succ out => rfl
  refine ⟨⟨hadds, fun χ κ hv => ha.tells χ κ (hv.congr rfl rfl), fun out k hk => ?_, fun hd => ?_⟩, ?_, u, kept,
    hlocals, hinit⟩
  · have hslot : HasSlot (pending :: ls) out k := by
      obtain ⟨q, hq, hk⟩ := hk
      cases out with
      | zero =>
        cases hq
        exact ⟨pending, rfl, Nat.lt_succ_of_lt hk⟩
      | succ out => exact ⟨q, hq, hk⟩
    have hbelow : heldAt (pending :: ls) out k = heldAt (l :: ls) out k := heldAt_below rfl hk
    rw [hsame, ha.held out k hslot, hbelow]
  · exact distinct_locals (l := l') rfl rfl (ha.distinct (distinct_locals (l := l) rfl rfl hd))
  · have hslot : HasSlot (pending :: ls) 0 l.locals.length := ⟨pending, rfl, Nat.lt_succ_self _⟩
    have hnewest : heldAt (pending :: ls) 0 l.locals.length = false := heldAt_newest (u := ⟨name, none, false⟩) rfl
    rw [hsame, ha.held 0 _ hslot, hnewest, Bool.false_or]

def Drops (n : Nat) (ls : List Level) (drops : List Use) : Prop :=
  ∀ l ∈ ls.head?, (l.locals.take n).map (fun v => Use.other (if v.captured then .closeUpvalue else .pop)) = drops

theorem drops_none (ls : List Level) : Drops 0 ls [] :=
  fun _ _ => rfl

theorem drops_newest {drops : List Use} (hfits : env.Fits ls)
    (hheld : heldAt ls 0 env.newest = Use.capturesAny 0 env.newest us) (hb : Traces m ls ls₁ b vs)
    (hdrops : Drops m ls₁ drops) : Drops (m + 1) ls₁ (drops ++ [.drop env.newest (us ++ vs)]) := by
  intro q hq
  cases hfits with
  | nil =>
    cases ls₁ with
    | nil => cases hq
    | cons q rest => exact nomatch hb.adds.grown.levels
  | @cons n l outer ls hn _ =>
    obtain ⟨q', rest, rfl, hgrown, -⟩ := hb.adds.levels rfl
    cases hq
    have hnewest : Env.newest (n :: outer) = n.bindings.length := rfl
    rw [hnewest] at hheld ⊢
    have hlength := hgrown.locals.length_eq
    rw [hn.slots] at hlength
    obtain ⟨v, old, hold⟩ : ∃ v old, q.locals.drop m = v :: old := List.exists_cons_of_length_pos (by
      have : n.bindings.length + 1 = (q.locals.drop m).length := hlength
      omega)
    have hlast : old.length = n.bindings.length := by
      rw [Level.under, hold, List.length_cons] at hlength
      exact (Nat.succ.inj hlength).symm
    have hcaptured : v.captured = Use.capturesAny 0 n.bindings.length (us ++ vs) := by
      have hslot : HasSlot (l :: ls) 0 n.bindings.length := ⟨l, rfl, by rw [hn.slots]; exact Nat.lt_succ_self _⟩
      have hat : heldAt (q :: rest) 0 n.bindings.length = v.captured := by
        rw [heldAt_zero, Level.holds, ← List.take_append_drop m q.locals, hold, List.reverse_append,
          List.reverse_cons, List.append_assoc, List.getElem?_append_right (by simp [hlast])]
        simp [hlast]
      rw [← hat, hb.held 0 _ hslot, hheld, capturesAny_append]
    rw [List.take_add, hold, List.map_append, hdrops q rfl, List.take_succ_cons, List.take_zero, List.map_cons,
        List.map_nil,
      Use.drop, hcaptured]

theorem capturesAny_drops (out k : Nat) (locals : List Local) : Use.capturesAny out k
    (locals.map fun v => .other (if v.captured then .closeUpvalue else .pop)) = false := by
  induction locals with
  | nil => rfl
  | cons v locals ih => exact ih

theorem tells_drops {χ : List (List Origin)} {κ : List Item} (locals : List Local) :
    Code.Tells χ κ (locals.map fun v => .instr (if v.captured then .closeUpvalue else .pop) .none)
      (locals.map fun v => .other (if v.captured then .closeUpvalue else .pop)) := by
  induction locals with
  | nil => exact .nil
  | cons v locals ih =>
    refine .other ?_ ih
    cases v.captured <;> decide

theorem traces_scope {drop : List Line} {drops : List Use} (hl : g.levels = l :: ls) (hs : SoundLevels g.levels)
    (ha : Traces n ({ l with depth := l.depth + 1 } :: ls) g₂.levels a us) (hdrops : Drops n g₂.levels drops)
    (hend : endScope g₂ = some (drop, g₃)) : Traces 0 g.levels g₃.levels (a ++ drop) (us ++ drops) := by
  obtain ⟨l₂, ls₂, hl₂, rfl, rfl⟩ := endScope_some hend
  rw [hl₂] at hdrops ha
  have hnews := hdrops l₂ rfl
  subst hnews
  rw [hl] at hs ⊢
  obtain ⟨hdropped, hdepth, hgrown, hsound⟩ := dropped_scope hs ha.adds
  rw [hdropped, hdepth]
  have hlocals : l.locals.length = (l₂.locals.drop n).length := by
    cases hgrown with
    | cons hgrown _ => exact hgrown.locals.length_eq
  refine ⟨Plan.Grown.adds ⟨hgrown, rfl, hsound⟩, fun χ κ hv => ?_, fun out k hk => ?_, fun hd => ?_⟩
  · exact (ha.tells χ κ (hv.congr rfl rfl)).append (tells_drops _)
  · rw [capturesAny_append, capturesAny_drops, Bool.or_false]
    have hheld := ha.held out k (by
      cases out with
      | zero =>
        obtain ⟨q, hq, hk⟩ := hk
        cases hq
        exact ⟨_, rfl, hk⟩
      | succ out => exact hk)
    cases out with
    | zero =>
      obtain ⟨q, hq, hk⟩ := hk
      cases hq
      rw [heldAt_zero, heldAt_zero] at hheld ⊢
      have hkept : (l₂.locals.drop n).reverse[k]? = l₂.locals.reverse[k]? := by
        conv_rhs => rw [← List.take_append_drop n l₂.locals, List.reverse_append]
        rw [List.getElem?_append_left (by rw [List.length_reverse, ← hlocals]; exact hk)]
      rw [Level.holds, hkept]
      exact hheld
    | succ out => exact hheld
  · exact distinct_locals (l := l₂) rfl rfl (ha.distinct (distinct_locals (l := l) rfl rfl hd))

theorem fits_parameters (names : List Bytes) {kind : FunctionKind} {bindings : List VarName}
    (hl : g.levels = l :: ls) (hdeep : 0 < l.depth) (hnames : ∀ p ∈ names, IsIdentifier p)
    (hfits : Nest.Fits ⟨kind, true, bindings⟩ l) {u : Unit} (h : names.forM parameter g = some (u, g')) :
    ∃ l', g'.levels = l' :: ls ∧ Nest.Fits ⟨kind, true, names.reverse.map .named ++ bindings⟩ l' ∧
      l'.origins = l.origins ∧ l'.constants = l.constants := by
  induction names generalizing g l bindings with
  | nil =>
    cases h
    exact ⟨l, hl, hfits, rfl, rfl⟩
  | cons name names ih =>
    obtain ⟨hname, hnames⟩ := List.forall_mem_cons.mp hnames
    obtain ⟨u, p, hfirst, h⟩ := bind_some h
    obtain ⟨-, rfl⟩ := parameter_some hl hdeep hfirst
    let next : Level :=
      { l with arity := l.arity + 1, locals := ⟨name, some l.depth, false⟩ :: l.locals }
    have hnext : Nest.Fits ⟨kind, true, .named name :: bindings⟩ next :=
      ⟨hfits.kind, hfits.inside, congrArg (name :: ·) hfits.names, List.forall_mem_cons.mpr ⟨hname, hfits.valid⟩⟩
    obtain ⟨l', hl', hfits₂, horigins, hconstants⟩ := ih (l := next) rfl hdeep hnames hnext h
    refine ⟨l', hl', ?_, horigins, hconstants⟩
    rw [List.reverse_cons, List.map_append, List.append_assoc]
    exact hfits₂

theorem fits_function {kind : FunctionKind} {fname : Option Bytes} {parameters : List Bytes}
    (henv : env.Fits g.levels) (hparameters : ∀ p ∈ parameters, IsIdentifier p) {u : Unit}
    (h : (do beginFunction kind fname; beginScope; parameters.forM parameter) g = some (u, g₁)) :
    ∃ l, g₁.levels = l :: g.levels ∧ (env.function kind parameters).Fits g₁.levels ∧ l.origins = [] ∧
      l.constants = [] := by
  obtain ⟨u, p, hbegin, h⟩ := bind_some h
  cases hbegin
  obtain ⟨u, p, hscope, h⟩ := bind_some h
  obtain ⟨l, ls, hl, rfl⟩ := modifyLevel_some hscope
  cases hl
  have hfits : Nest.Fits ⟨kind, true, []⟩
      { kind, name := fname, depth := 1, locals := [⟨kind.receiverName, some 0, false⟩] } :=
    ⟨rfl, rfl, rfl, nofun⟩
  obtain ⟨l', hl', hfits', horigins, hconstants⟩ := fits_parameters parameters rfl Nat.zero_lt_one hparameters hfits h
  refine ⟨l', hl', ?_, horigins, hconstants⟩
  rw [List.append_nil] at hfits'
  rw [hl']
  exact .cons hfits' henv

theorem tells_returnCode {χ : List (List Origin)} {κ : List Item} (kind : FunctionKind) :
    Code.Tells χ κ (returnCode kind) (Use.leave kind) := by
  have hreturn : Code.Tells χ κ [.instr .return_ .none] [.other .return_] := .other (by decide) .nil
  unfold returnCode Use.leave
  split
  · exact .read (.slot 0) hreturn
  · exact .other (by decide) hreturn

theorem capturesAny_leave (out k : Nat) (kind : FunctionKind) :
    Use.capturesAny (out + 1) k (Use.leave kind) = false := by
  unfold Use.leave
  split <;> rfl

theorem getElem?_of_extends {items κ : List Item} {item : Item} (h : items ++ [item] <+: κ) :
    κ[items.length]? = some item := by
  rw [List.prefix_iff_getElem?.mp h items.length (by simp), List.getElem_concat_length rfl]

theorem traces_closure {l₁ : Level} {f : Listing Item} {k : Nat} (hl₁ : g₁.levels = l₁ :: g.levels)
    (horigins : l₁.origins = []) (hconstants : l₁.constants = []) (ha : Traces n g₁.levels g₂.levels a us)
    (hend : endFunction a g₂ = some (f, g₃)) {u : Unit} (henlist : enlist f.classes g₃ = some (u, g₄))
    (hk : constant (.function f) g₄ = some (k, g'))
    (hgrown : g.Grown g') : Traces 0 g.levels g'.levels [.instr .closure (.closure k f.origins)]
      [.closure (us ++ Use.leave l₁.kind)] := by
  obtain ⟨l₂, ls₂, hl₂, rfl, rfl⟩ := endFunction_some hend
  obtain ⟨q, qs, hq, rfl⟩ := enlist_some henlist
  have hlevels : ls₂ = q :: qs := hq
  subst hlevels
  obtain ⟨_, _, ⟨⟩, rfl, rfl⟩ := constant_some hk
  rw [hl₁, hl₂] at ha
  have hkind : l₂.kind = l₁.kind := by
    obtain ⟨l', ls', hl', hgrown', -⟩ := ha.adds.levels rfl
    cases hl'
    exact hgrown'.kind
  refine ⟨hgrown.bare, fun χ κ hv => ?_, fun out k hk => ?_, fun hd => ?_⟩
  · refine .closure (getElem?_of_extends (hv.constants _ rfl)) ?_ .nil
    have hbody : Views (l₂ :: q :: qs) (l₂.origins :: χ) l₂.constants := by
      cases hv.origins with
      | cons ho horigins =>
        refine ⟨.cons (List.prefix_refl _) (.cons ho horigins), fun l hl => ?_⟩
        cases hl
        exact List.prefix_refl _
    rw [← hkind]
    exact (ha.tells _ _ hbody).append (tells_returnCode _)
  · have hheld := ha.held (out + 1) k hk
    rw [heldAt_succ, heldAt_succ] at hheld
    rw [heldAt_constants, heldAt_declared, hheld, capturesAny_cons, capturesAny_nil, captures_closure,
        capturesAny_append,
      capturesAny_leave, Bool.or_false, Bool.or_false]
  · have hd₁ : DistinctLevels (l₁ :: g.levels) := List.forall_mem_cons.mpr
      ⟨⟨by rw [horigins]; exact List.nodup_nil, by rw [hconstants]; exact nofun⟩, hd⟩
    obtain ⟨hl₂, hrest⟩ := List.forall_mem_cons.mp (ha.distinct hd₁)
    exact distinct_constant (fun f hf => by cases hf; exact .intro hl₂.1 hl₂.2) (distinct_declared _ hrest)

end

end Lox
