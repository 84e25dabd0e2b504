import Lox.Proofs.Source.Generate

namespace Lox

theorem bind_of {σ α β : Type} {x : StateT σ Option α} {f : α → StateT σ Option β} {s s' : σ} {a : α}
    (h : x s = some (a, s')) : (x >>= f) s = f a s' := by
  show (x s >>= fun p => f p.1 p.2) = _
  rw [h]
  rfl

theorem bind_some {σ α β : Type} {x : StateT σ Option α} {f : α → StateT σ Option β} {s s₂ : σ} {b : β}
    (h : (x >>= f) s = some (b, s₂)) : ∃ a s₁, x s = some (a, s₁) ∧ f a s₁ = some (b, s₂) := by
  obtain ⟨⟨a, s₁⟩, hx, hf⟩ := Option.bind_eq_some_iff.mp h
  exact ⟨a, s₁, hx, hf⟩

namespace PlanM

variable {g g' : Plan} {l : Level} {ls : List Level}

theorem level_some {a : Level} (h : level g = some (a, g')) :
    g' = g ∧ ∃ ls, g.levels = a :: ls := by
  unfold level at h
  split at h
  · next hl =>
    cases h
    exact ⟨rfl, _, hl⟩
  · cases h

theorem modifyLevel_some {f : Level → Level} {u : Unit} (h : modifyLevel f g = some (u, g')) :
    ∃ l ls, g.levels = l :: ls ∧ g' = { g with levels := f l :: ls } := by
  unfold modifyLevel at h
  split at h
  · next hl =>
    cases h
    exact ⟨_, _, hl, rfl⟩
  · cases h

theorem constant_some {item : Item} {k : Nat} (h : constant item g = some (k, g')) :
    ∃ l ls, g.levels = l :: ls ∧ k = l.constants.length ∧
      g' = { g with levels := { l with constants := l.constants ++ [item] } :: ls } := by
  obtain ⟨l, g₁, hl, h⟩ := bind_some h
  obtain ⟨u, g₂, hmod, h⟩ := bind_some h
  obtain ⟨rfl, ls, hls⟩ := level_some hl
  obtain ⟨l', ls', hls', rfl⟩ := modifyLevel_some hmod
  rw [hls] at hls'
  cases hls'
  cases h
  exact ⟨l, ls, hls, rfl, rfl⟩

theorem resolve_some {name : Bytes} {place : Place} (hr : resolve name g = some (place, g')) :
    ∃ l ls, g.levels = l :: ls ∧
      ((∃ slot v, findLocal name l.locals = some (slot, v) ∧ v.depth.isNone = false ∧
        place = .slot slot ∧ g' = g) ∨
      (findLocal name l.locals = none ∧ ∃ i levels, Level.findCapture name g.levels = some (some i, levels) ∧
        place = .captured i ∧ g' = { g with levels }) ∨
      (findLocal name l.locals = none ∧ ∃ k levels, Level.findCapture name g.levels = some (none, levels) ∧
        constant (.string name) { g with levels } = some (k, g') ∧ place = .global k)) := by
  obtain ⟨l, g₁, hl, h⟩ := bind_some hr
  obtain ⟨rfl, ls, hls⟩ := level_some hl
  refine ⟨l, ls, hls, ?_⟩
  cases hfind : findLocal name l.locals with
  | some r =>
    rw [hfind] at h
    dsimp only at h
    cases hinit : r.2.depth.isNone with
    | true =>
      rw [hinit] at h
      cases h
    | false =>
      rw [hinit] at h
      cases h
      exact .inl ⟨r.1, r.2, rfl, hinit, rfl, rfl⟩
  | none =>
    rw [hfind] at h
    obtain ⟨g₂, g₃, hget, h⟩ := bind_some h
    cases hget
    cases hcap : Level.findCapture name g₁.levels with
    | none =>
      rw [hcap] at h
      cases h
    | some r =>
      obtain ⟨index, levels⟩ := r
      rw [hcap] at h
      obtain ⟨u, g₄, hset, h⟩ := bind_some h
      cases hset
      cases index with
      | some i =>
        cases h
        exact .inr (.inl ⟨rfl, i, levels, rfl, rfl, rfl⟩)
      | none =>
        obtain ⟨k, g₅, hk, h⟩ := bind_some h
        cases h
        exact .inr (.inr ⟨rfl, k, levels, rfl, hk, rfl⟩)

theorem enlist_some {classes : List ClassBody} {u : Unit} (h : enlist classes g = some (u, g')) :
    ∃ l ls, g.levels = l :: ls ∧ g' = { g with levels := { l with declared := l.declared ++ classes } :: ls } :=
  modifyLevel_some h

theorem declare_some {name : Bytes} {u : Unit} (h : declare name g = some (u, g')) :
    name ∉ hiddenNames ∧ ∃ l ls, g.levels = l :: ls ∧ ((l.depth = 0 ∧ g' = g) ∨
      (0 < l.depth ∧ (sameScope l.depth l.locals).any (·.name == name) = false ∧
        g' = { g with levels := { l with locals := ⟨name, none, false⟩ :: l.locals } :: ls })) := by
  obtain ⟨l, g₁, hl, hrest⟩ := bind_some h
  obtain ⟨rfl, ls, hls⟩ := level_some hl
  split at hrest
  · cases hrest
  · rename_i hname
    refine ⟨hname, l, ls, hls, ?_⟩
    split at hrest
    · rename_i hdeep
      split at hrest
      · cases hrest
      · rename_i hany
        obtain ⟨l', ls', hls', rfl⟩ := modifyLevel_some hrest
        rw [hls] at hls'
        cases hls'
        exact .inr ⟨hdeep, Bool.eq_false_iff.mpr hany, rfl⟩
    · rename_i hdeep
      cases hrest
      exact .inl ⟨Nat.eq_zero_of_not_pos hdeep, rfl⟩

theorem declareNamed_some {name : Bytes} {k : Nat} (h : declareNamed name g = some (k, g')) :
    name ∉ hiddenNames ∧ ∃ l ls, g.levels = l :: ls ∧
      ((l.depth = 0 ∧ constant (.string name) g = some (k, g')) ∨
      (0 < l.depth ∧ k = 0 ∧ (sameScope l.depth l.locals).any (·.name == name) = false ∧
        g' = { g with levels := { l with locals := ⟨name, none, false⟩ :: l.locals } :: ls })) := by
  obtain ⟨u, g₁, hdecl, hrest⟩ := bind_some h
  obtain ⟨hname, l, ls, hls, hcases⟩ := declare_some hdecl
  obtain ⟨l', g₂, hl, hrest⟩ := bind_some hrest
  obtain ⟨rfl, ls', hls'⟩ := level_some hl
  refine ⟨hname, l, ls, hls, ?_⟩
  rcases hcases with ⟨hzero, rfl⟩ | ⟨hdeep, hany, rfl⟩
  · rw [hls] at hls'
    cases hls'
    rw [if_neg (by omega)] at hrest
    exact .inl ⟨hzero, hrest⟩
  · cases hls'
    rw [if_pos hdeep] at hrest
    cases hrest
    exact .inr ⟨hdeep, rfl, hany, rfl⟩

def initialized (l : Level) : Level :=
  { l with locals := match l.locals with
    | v :: rest => { v with depth := some l.depth } :: rest
    | [] => [] }

theorem initialize_some {u : Unit} (h : initialize_ g = some (u, g')) : ∃ l ls, g.levels = l :: ls ∧
    ((l.depth = 0 ∧ g' = g) ∨ (0 < l.depth ∧ g' = { g with levels := initialized l :: ls })) := by
  obtain ⟨l, ls, hls, rfl⟩ := modifyLevel_some h
  refine ⟨l, ls, hls, ?_⟩
  by_cases hzero : l.depth = 0
  · rw [if_pos hzero, ← hls]
    exact .inl ⟨hzero, rfl⟩
  · rw [if_neg hzero]
    exact .inr ⟨Nat.pos_of_ne_zero hzero, rfl⟩

theorem define_some {k : Nat} {lines : List Line} (h : define k g = some (lines, g')) :
    ∃ l ls, g.levels = l :: ls ∧
      ((l.depth = 0 ∧ lines = [.instr .defineGlobal (.byte k)] ∧ g' = g) ∨
      (0 < l.depth ∧ lines = [] ∧ g' = { g with levels := initialized l :: ls })) := by
  obtain ⟨l, g₁, hl, hrest⟩ := bind_some h
  obtain ⟨rfl, ls, hls⟩ := level_some hl
  refine ⟨l, ls, hls, ?_⟩
  split at hrest
  · rename_i hdeep
    obtain ⟨u, g₂, hinit, hrest⟩ := bind_some hrest
    obtain ⟨l', ls', hls', hcases⟩ := initialize_some hinit
    rw [hls] at hls'
    cases hls'
    cases hrest
    rcases hcases with ⟨hzero, -⟩ | ⟨-, rfl⟩
    · omega
    · exact .inr ⟨hdeep, rfl, rfl⟩
  · rename_i hdeep
    cases hrest
    exact .inl ⟨Nat.eq_zero_of_not_pos hdeep, rfl, rfl⟩

theorem endScope_some {lines : List Line} (h : endScope g = some (lines, g')) : ∃ l ls, g.levels = l :: ls ∧
    lines = (dropped (l.depth - 1) l.locals).1 ∧ g' = { g with levels :=
      { l with depth := l.depth - 1, locals := (dropped (l.depth - 1) l.locals).2 } :: ls } := by
  obtain ⟨l, g₁, hl, hrest⟩ := bind_some h
  obtain ⟨rfl, ls, hls⟩ := level_some hl
  obtain ⟨u, g₂, hmod, hrest⟩ := bind_some hrest
  obtain ⟨l', ls', hls', rfl⟩ := modifyLevel_some hmod
  rw [hls] at hls'
  cases hls'
  cases hrest
  exact ⟨l, ls, hls, rfl, rfl⟩

theorem endFunction_some {body : List Line} {f : Listing Item} (h : endFunction body g = some (f, g')) :
    ∃ l ls, g.levels = l :: ls ∧ g' = { g with levels := ls } ∧
      f = ⟨l.kind, l.arity, l.name, l.origins, l.origins.map (Level.mark ls), body ++ returnCode l.kind,
        l.constants, l.declared⟩ := by
  obtain ⟨l, g₁, hl, hrest⟩ := bind_some h
  obtain ⟨rfl, ls, hls⟩ := level_some hl
  have hrun : some (f, g') = some ((⟨l.kind, l.arity, l.name, l.origins,
      l.origins.map (Level.mark g₁.levels.tail), body ++ returnCode l.kind, l.constants, l.declared⟩ : Listing Item),
      { g₁ with levels := g₁.levels.tail }) := hrest.symm
  rw [hls] at hrun
  cases hrun
  exact ⟨l, ls, hls, rfl, rfl⟩

theorem openClass_inherits {name s : Bytes} {lines : List Line} (h : openClass name (some s) g = some (lines, g')) :
    ∃ place own p₁ p₂ l ls, resolve s ⟨g.levels, false :: g.classes⟩ = some (place, p₁) ∧ p₁.levels = l :: ls ∧
      resolve name ⟨{ l with
        depth := l.depth + 1
        locals := ⟨"super", some (l.depth + 1), false⟩ :: l.locals } :: ls, p₁.classes⟩ = some (own, p₂) ∧
      g' = ⟨p₂.levels, true :: p₂.classes.tail⟩ ∧ lines = [place.read, own.read, .instr .inherit .none] := by
  obtain ⟨u, q, hclasses, h⟩ := bind_some h
  cases hclasses
  obtain ⟨place, p₁, hplace, h⟩ := bind_some h
  split at h
  · cases h
  · obtain ⟨u, q, hscope, h⟩ := bind_some h
    obtain ⟨l, ls, hl, rfl⟩ := modifyLevel_some hscope
    obtain ⟨u, q, hadd, h⟩ := bind_some h
    obtain ⟨l', ls', hl', rfl⟩ := modifyLevel_some hadd
    cases hl'
    obtain ⟨u, q, hinit, h⟩ := bind_some h
    obtain ⟨l', ls', hl', ⟨hzero, -⟩ | ⟨-, rfl⟩⟩ := initialize_some hinit
    · cases hl'
      cases hzero
    cases hl'
    obtain ⟨own, p₂, hown, h⟩ := bind_some h
    obtain ⟨u, q, hinherits, h⟩ := bind_some h
    cases hinherits
    cases h
    exact ⟨place, own, p₁, p₂, l, ls, hplace, hl, hown, rfl, rfl⟩

end PlanM

end Lox
