import Lox.Proofs.Source.Accept

namespace Lox

namespace CompileM

open Compiler

variable {α β : Type} {c : Compiler} {prev : Token} {ts : List Token} {g : Plan} {code : List UInt8}
  {codes : List (List UInt8)}

theorem run_scope (h : At c prev ts g (code :: codes)) : ∃ s e p l ls, scope c = (s, c) ∧
    c.scopes.head? = some s ∧ g.levels = l :: ls ∧ PlanM.level g = some (l, g) ∧ Alike s e p l code := by
  obtain ⟨d, s, ss, e, es, p, ps, l, ls, hd, hs, he, hp, hl, head, tail⟩ := h.inner
  refine ⟨s, e, p, l, ls, ?_, ?_, hl, ?_, head⟩
  · show (c.scopes.headD { kind := .script }, c) = _
    rw [hs]
    rfl
  · rw [hs]
    rfl
  · unfold PlanM.level
    rw [hl]

theorem accepts_modifyScope {S : Scope → Scope} {G : Level → Level} (h : At c prev ts g (code :: codes))
    (halike : ∀ s e p l, c.scopes.head? = some s → g.levels.head? = some l → Alike s e p l code →
      Alike (S s) e p (G l) code) :
    Accepts (modifyScope S) c fun _ c' => ∃ g', PlanM.modifyLevel G g = some ((), g') ∧
      At c' prev ts g' (code :: codes) := by
  intro _
  obtain ⟨d, s, ss, e, es, p, ps, l, ls, hd, hs, he, hp, hl, head, tail⟩ := h.inner
  refine ⟨_, run_modifyLevel G h, h.clean, h.calm, h.previous, h.tokens, h.stream, h.classes, d, hd, ?_⟩
  rw [run_modifyScope]
  show AllAlike (c.scopes.modifyHead S) c.extents d.open_ (g.levels.modifyHead G) (code :: codes)
  rw [hs, he, hp, hl]
  exact .cons (halike s e p l (by rw [hs]; rfl) (by rw [hl]; rfl) head) tail

theorem accepts_beginScope (h : At c prev ts g (code :: codes)) :
    Accepts beginScope c fun _ c' => ∃ g', PlanM.beginScope g = some ((), g') ∧
      At c' prev ts g' (code :: codes) :=
  accepts_modifyScope h fun _ _ _ _ _ _ ha => { ha with
    depth := congrArg (· + 1) ha.depth }

theorem accepts_addLocal (name : Bytes) (h : At c prev ts g (code :: codes)) :
    Accepts (addLocal name) c fun _ c' => ∃ g', PlanM.addLocal name g = some ((), g') ∧
      At c' prev ts g' (code :: codes) := by
  obtain ⟨s, e, p, l, ls, hs, hhead, -, -, ha⟩ := run_scope h
  have hslots : s.locals.length ≤ 256 := by
    rw [ha.locals]
    exact ha.slots
  refine .read hs ?_
  by_cases hfull : s.locals.length = 256
  · rw [if_pos hfull]
    exact accepts_problem h.calm
  · rw [if_neg hfull]
    refine accepts_modifyScope h fun s' e p l hs' _ ha => { ha with
      locals := by rw [ha.locals]
      slots := ?_ }
    rw [hhead] at hs'
    cases hs'
    rw [ha.locals] at hfull hslots
    simp only [List.length_cons]
    omega

theorem accepts_declareVariable (hname : prev.lexeme ∉ PlanM.hiddenNames) (h : At c prev ts g (code :: codes)) :
    Accepts declareVariable c fun _ c' => ∃ g', PlanM.declare prev.lexeme g = some ((), g') ∧
      At c' prev ts g' (code :: codes) := by
  obtain ⟨s, e, p, l, ls, hs, -, -, hlevel, ha⟩ := run_scope h
  have hplan : PlanM.declare prev.lexeme g = (do
      if prev.lexeme ∈ PlanM.hiddenNames then failure
      else if 0 < l.depth then
        if (sameScope l.depth l.locals).any (·.name == prev.lexeme) then failure
        else PlanM.addLocal prev.lexeme : PlanM Unit) g := bind_of hlevel
  rw [hplan, if_neg hname]
  refine .read hs ?_
  rw [ha.depth, ha.locals]
  by_cases hdeep : 0 < l.depth
  · rw [if_pos hdeep, if_pos hdeep]
    refine .read (run_lexeme h) ?_
    by_cases hany : (sameScope l.depth l.locals).any (·.name == prev.lexeme) = true
    · rw [if_pos hany]
      exact accepts_problem_bind h.calm
    · rw [if_neg hany, if_neg hany]
      exact accepts_addLocal prev.lexeme h
  · rw [if_neg hdeep, if_neg hdeep]
    exact fun _ => ⟨g, rfl, h⟩

theorem accepts_parseVariable (what : String) (h : At c prev ts g (code :: codes)) :
    Accepts (parseVariable what) c fun b c' => ∃ t ts' k g', ts = t :: ts' ∧
      Parser.expect .identifier ts = some (t, ts') ∧ PlanM.declareNamed t.lexeme g = some (k, g') ∧
        k < 256 ∧ b = k.toUInt8 ∧ At c' t ts' g' (code :: codes) := by
  refine .bind (accepts_consume h (by nofun)) fun _ c₁ ⟨t, ts', hts, hkind, h₁, hp⟩ => ?_
  have hname := ((hts ▸ h.stream).genuine.identifier hkind).not_hidden
  refine .bind (accepts_declareVariable hname h₁) fun _ c₂ ⟨g₂, hg₂, h₂⟩ => ?_
  obtain ⟨s, e, p, l, ls, hs, -, -, hlevel, ha⟩ := run_scope h₂
  have hplan : PlanM.declareNamed t.lexeme g =
      (if 0 < l.depth then return 0 else PlanM.constant (.string t.lexeme) : PlanM Nat) g₂ := by
    unfold PlanM.declareNamed
    rw [bind_of hg₂, bind_of hlevel]
  refine .read hs ?_
  rw [ha.depth]
  by_cases hdeep : 0 < l.depth
  · rw [if_pos hdeep] at hplan ⊢
    exact .pure ⟨t, ts', 0, g₂, hts, hp, hplan, by decide, rfl, h₂⟩
  · rw [if_neg hdeep] at hplan ⊢
    refine .read (run_lexeme h₂) ?_
    refine (accepts_nameConstant t.lexeme h₂).weaken fun b c₃ ⟨k, g₃, hg₃, hk, hb, h₃⟩ => ?_
    exact ⟨t, ts', k, g₃, hts, hp, hplan.trans hg₃, hk, hb, h₃⟩

theorem accepts_modifyNewest (h : At c prev ts g (code :: codes)) : Accepts (modifyScope fun s =>
    if s.depth = 0 then s
    else { s with locals := match s.locals with
      | l :: rest => { l with depth := some s.depth } :: rest
      | [] => [] }) c fun _ c' => ∃ g', PlanM.initialize_ g = some ((), g') ∧
        At c' prev ts g' (code :: codes) := by
  refine accepts_modifyScope h fun s e p l _ _ ha => ?_
  by_cases hdepth : l.depth = 0
  · rw [if_pos hdepth, if_pos (ha.depth.trans hdepth)]
    exact ha
  · rw [if_neg hdepth, if_neg (by rw [ha.depth]; exact hdepth)]
    refine { ha with
      locals := ?_
      slots := ?_ }
    · cases hl : l.locals <;> simp [ha.locals, ha.depth, hl]
    · have := ha.slots
      cases hl : l.locals with
      | nil => simp
      | cons v rest => simpa [hl] using this

theorem accepts_markInitialized (h : At c prev ts g (code :: codes)) :
    Accepts markInitialized c fun _ c' => ∃ g', PlanM.initialize_ g = some ((), g') ∧
      At c' prev ts g' (code :: codes) := by
  obtain ⟨s, e, p, l, ls, hs, -⟩ := run_scope h
  refine .read hs ?_
  dsimp only
  split
  · exact accepts_giveUp_bind h fun _ => accepts_modifyNewest
  · exact accepts_modifyNewest h

theorem accepts_defineVariable {k : Nat} (hk : k < 256) (h : At c prev ts g (code :: codes)) :
    Accepts (defineVariable k.toUInt8) c fun _ c' => ∃ lines g', PlanM.define k g = some (lines, g') ∧
      Code.Fits lines ∧ At c' prev ts g' ((code ++ Code.bytes lines) :: codes) := by
  obtain ⟨s, e, p, l, ls, hs, -, -, hlevel, ha⟩ := run_scope h
  have hplan : PlanM.define k g = (do
      if 0 < l.depth then
        PlanM.initialize_
        return []
      else return [.instr .defineGlobal (.byte k)] : PlanM (List Line)) g := bind_of hlevel
  rw [hplan]
  refine .read hs ?_
  rw [ha.depth]
  by_cases hdeep : 0 < l.depth
  · rw [if_pos hdeep, if_pos hdeep]
    refine (accepts_markInitialized h).weaken fun _ c₁ ⟨g₁, hg₁, h₁⟩ => ?_
    refine ⟨[], g₁, by rw [bind_of hg₁]; rfl, Code.fits_nil, ?_⟩
    rw [Code.bytes_nil, List.append_nil]
    exact h₁
  · rw [if_neg hdeep, if_neg hdeep]
    refine (accepts_emitWith .defineGlobal k h).weaken fun _ c₁ h₁ => ?_
    exact ⟨_, g, rfl, Code.fits_byte _ hk, h₁⟩

theorem accepts_dropLocals (depth : Nat) (locals : List Local) {l : Level} {ls : List Level}
    (hl : g.levels = l :: ls) (hlocals : l.locals = locals) (h : At c prev ts g (code :: codes)) :
    Accepts (dropLocals depth locals) c fun _ c' => Code.Fits (PlanM.dropped depth locals).1 ∧
      At c' prev ts { g with levels := { l with locals := (PlanM.dropped depth locals).2 } :: ls }
        ((code ++ Code.bytes (PlanM.dropped depth locals).1) :: codes) := by
  induction locals generalizing c g l code with
  | nil =>
    refine .pure ⟨Code.fits_nil, ?_⟩
    have hg : { g with levels := { l with locals := (PlanM.dropped depth []).2 } :: ls } = g := by
      rw [PlanM.dropped, ← hlocals, ← hl]
    rw [hg]
    simpa [PlanM.dropped] using h
  | cons v rest ih =>
    unfold dropLocals PlanM.dropped
    by_cases hv : v.depth.any (depth < ·) = true
    · rw [if_pos hv, if_pos hv]
      refine .bind (accepts_emit _ h) fun _ c₁ h₁ => ?_
      refine .bind (accepts_modifyScope (G := fun l => { l with locals := rest }) h₁ ?_)
        fun _ c₂ ⟨g₂, hg₂, h₂⟩ => ?_
      · intro s e p l' _ hl' ha
        rw [hl] at hl'
        cases hl'
        refine { ha with
          locals := rfl
          slots := ?_ }
        have hslots := ha.slots
        rw [hlocals, List.length_cons] at hslots
        show rest.length ≤ 256
        omega
      · rw [run_modifyLevel _ h₁, hl] at hg₂
        cases hg₂
        refine (ih rfl rfl h₂).weaken fun _ c₃ ⟨hfits, h₃⟩ => ?_
        refine ⟨Code.fits_cons trivial hfits, ?_⟩
        simpa using h₃
    · rw [if_neg hv, if_neg hv]
      refine .pure ⟨Code.fits_nil, ?_⟩
      have hg : { g with levels := { l with locals := v :: rest } :: ls } = g := by
        rw [← hlocals, ← hl]
      rw [hg]
      simpa using h

theorem plan_endScope {l : Level} {ls : List Level} (hl : g.levels = l :: ls) :
    PlanM.endScope g = some ((PlanM.dropped (l.depth - 1) l.locals).1, { g with levels :=
      { l with depth := l.depth - 1, locals := (PlanM.dropped (l.depth - 1) l.locals).2 } :: ls }) := by
  have hlevel : PlanM.level g = some (l, g) := by
    unfold PlanM.level
    rw [hl]
  have hmodify (G : Level → Level) : PlanM.modifyLevel G g = some ((), { g with levels := G l :: ls }) := by
    unfold PlanM.modifyLevel
    rw [hl]
  unfold PlanM.endScope
  rw [bind_of hlevel]
  cases PlanM.dropped (l.depth - 1) l.locals with
  | mk lines locals => exact bind_of (hmodify _)

theorem accepts_endScope (h : At c prev ts g (code :: codes)) :
    Accepts endScope c fun _ c' => ∃ lines g', PlanM.endScope g = some (lines, g') ∧
      Code.Fits lines ∧ At c' prev ts g' ((code ++ Code.bytes lines) :: codes) := by
  obtain ⟨l, ls, hl, -⟩ := h.level
  refine .bind (accepts_modifyScope (G := fun l => { l with depth := l.depth - 1 }) h ?_)
    fun _ c₁ ⟨g₁, hg₁, h₁⟩ => ?_
  · exact fun _ _ _ _ _ _ ha => { ha with
      depth := congrArg (· - 1) ha.depth }
  · rw [run_modifyLevel _ h, hl] at hg₁
    cases hg₁
    obtain ⟨s₁, e₁, p₁, l₁, ls₁, hs₁, -, hl₁, -, ha₁⟩ := run_scope h₁
    cases hl₁
    refine .read hs₁ ?_
    rw [ha₁.depth, ha₁.locals]
    refine (accepts_dropLocals _ _ rfl rfl h₁).weaken fun _ c₂ ⟨hfits, h₂⟩ => ?_
    exact ⟨_, _, plan_endScope hl, hfits, h₂⟩

def capturing (ps : List Prototype) : List Finding → Option (List Prototype)
  | [] => some ps
  | .problem _ :: _ => none
  | .capture d :: found => capturing (ps.modify d fun p => { p with captures := p.captures + 1 }) found

theorem capturing_append (ps : List Prototype) (a b : List Finding) :
    capturing ps (a ++ b) = (capturing ps a).bind (capturing · b) := by
  induction a generalizing ps with
  | nil => rfl
  | cons f a ih =>
    cases f with
    | problem p => rfl
    | capture d => exact ih _

theorem accepts_reports {d : Drafts} {found : List Finding} (hd : c.drafts = some d)
    (hcalm : c.panicking = false) (hfound : CapturesWithin 0 d.open_.length found) :
    Accepts (found.forM report) c fun _ c' => ∃ d', capturing d.open_ found = some d'.open_ ∧
      c'.drafts = some d' ∧ c' = { c with orders := c'.orders } := by
  induction found generalizing c d with
  | nil => exact .pure ⟨d, rfl, hd, rfl⟩
  | cons f found ih =>
    cases f with
    | problem p => exact accepts_problem_bind hcalm
    | capture k =>
      have hk := (hfound k (List.mem_cons_self ..)).2
      have hdraft : (order (.capture k) c).2.drafts =
          some ⟨d.open_.modify k fun p => { p with captures := p.captures + 1 }, none⟩ := by
        rw [drafts_cons (o := .capture k) (c := c) rfl, hd]
        show Order.draft d (.capture k) = _
        rw [Order.draft, if_pos hk]
      intro hclean
      refine ih hdraft hcalm (fun i hi => ?_) hclean
      rw [List.length_modify]
      exact hfound i (List.mem_cons_of_mem _ hi)

theorem modify_middle {α : Type} (f : α → α) (pre post : List α) (a : α) :
    (pre ++ a :: post).modify pre.length f = pre ++ f a :: post := by
  induction pre with
  | nil => rfl
  | cons b pre ih => simp [ih]

theorem length_captureLocal (slot : Nat) (locals : List Local) :
    (captureLocal slot locals).length = locals.length := by
  induction locals with
  | nil => rfl
  | cons l rest ih =>
    unfold captureLocal
    split
    · rfl
    · rw [List.length_cons, List.length_cons, ih]

theorem findLocal_lt {name : Bytes} {locals : List Local} {slot : Nat} {v : Local}
    (h : findLocal name locals = some (slot, v)) : slot < locals.length := by
  induction locals with
  | nil => cases h
  | cons l rest ih =>
    unfold findLocal at h
    split at h
    · cases h
      exact Nat.lt_succ_self _
    · exact Nat.lt_succ_of_lt (ih h)

theorem capture_inj {o o' : Origin} (h : o.index < 256) (h' : o'.index < 256) :
    o.capture = o'.capture ↔ o = o' := by
  refine ⟨fun heq => ?_, congrArg _⟩
  cases o with
  | mk isLocal index =>
    cases o' with
    | mk isLocal' index' =>
      simp only [Origin.capture, Capture.mk.injEq] at heq
      have hi := congrArg UInt8.toNat heq.1
      rw [UInt8.toNat_ofNat', UInt8.toNat_ofNat'] at hi
      simp only at h h'
      rw [Nat.mod_eq_of_lt h, Nat.mod_eq_of_lt h'] at hi
      rw [hi, heq.2]

theorem findIdx?_capture {origins : List Origin} {o : Origin} (ho : o.index < 256)
    (hsmall : ∀ o ∈ origins, o.index < 256) :
    (origins.map Origin.capture).findIdx? (· == o.capture) = origins.findIdx? (· == o) := by
  induction origins with
  | nil => rfl
  | cons q qs ih =>
    have hq := hsmall q (List.mem_cons_self ..)
    have hqs := ih fun o ho => hsmall o (List.mem_cons_of_mem _ ho)
    rw [List.map_cons, List.findIdx?_cons, List.findIdx?_cons, hqs]
    have hiff : (q.capture == o.capture) = (q == o) := by
      rw [Bool.eq_iff_iff, beq_iff_eq, beq_iff_eq]
      exact capture_inj hq ho
    rw [hiff]

theorem addCapture_alike {s : Scope} {e : Extent} {p : Prototype} {l : Level} (ha : Alike s e p l code)
    {o : Origin} (ho : o.index < 256) {pre ps ps' : List Prototype}
    (hcap : capturing (pre ++ p :: ps) (s.addCapture pre.length o.capture).2.2 = some ps') :
    ∃ p', ps' = pre ++ p' :: ps ∧ (s.addCapture pre.length o.capture).1 = (l.capture o).1 ∧
      (l.capture o).1 < 256 ∧ Alike (s.addCapture pre.length o.capture).2.1 e p' (l.capture o).2 code := by
  have hfind := findIdx?_capture ho ha.small
  rw [← ha.captures] at hfind
  unfold Scope.addCapture at hcap ⊢
  unfold Level.capture
  rw [hfind] at hcap ⊢
  cases hi : l.origins.findIdx? (· == o) with
  | some i =>
    rw [hi] at hcap
    cases hcap
    have hlt : i < l.origins.length := by
      obtain ⟨hlt, -⟩ := List.findIdx?_eq_some_iff_getElem.mp hi
      exact hlt
    exact ⟨p, rfl, rfl, Nat.lt_of_lt_of_le hlt ha.few, ha⟩
  | none =>
    rw [hi] at hcap
    have hlen : s.captures.length = l.origins.length := by
      rw [ha.captures, List.length_map]
    dsimp only at hcap ⊢
    by_cases hfull : s.captures.length = 256
    · rw [if_pos hfull] at hcap
      cases hcap
    · rw [if_neg hfull] at hcap ⊢
      have hfew := ha.few
      rw [capturing, modify_middle] at hcap
      cases hcap
      rw [hlen] at hfull
      refine ⟨_, rfl, hlen, by omega, { ha with
        captures := ?_
        captured := ?_
        few := ?_
        small := ?_ }⟩
      · rw [ha.captures, List.map_append]
        rfl
      · simp [ha.captured]
      · simp only [List.length_append, List.length_cons, List.length_nil]
        omega
      · intro q hq
        rcases List.mem_append.mp hq with hq | hq
        · exact ha.small q hq
        · rw [List.mem_singleton.mp hq]
          exact ho

theorem slotOf_cases {s : Scope} {e : Extent} {p : Prototype} {l : Level} (ha : Alike s e p l code)
    (name : Bytes) : (findLocal name l.locals = none ∧ s.slotOf name = (none, [])) ∨
      ∃ slot v, findLocal name l.locals = some (slot, v) ∧ slot < 256 ∧
        s.slotOf name = (some slot, if v.depth.isNone then [.problem .ownInitializer] else []) := by
  unfold Scope.slotOf
  rw [ha.locals]
  cases hfind : findLocal name l.locals with
  | none => exact .inl ⟨rfl, rfl⟩
  | some found =>
    exact .inr ⟨found.1, found.2, rfl, Nat.lt_of_lt_of_le (findLocal_lt hfind) ha.slots, rfl⟩

theorem findCapture_alike {name : Bytes} {scopes : List Scope} {es : List Extent}
    {pre ps ps' : List Prototype} {ls : List Level} (hall : AllAlike scopes es ps ls codes)
    (hcap : capturing (pre ++ ps) (Scope.findCapture name pre.length scopes).2.2 = some ps') :
    ∃ ps'' ls', ps' = pre ++ ps'' ∧
      Level.findCapture name ls = some ((Scope.findCapture name pre.length scopes).1, ls') ∧
      AllAlike (Scope.findCapture name pre.length scopes).2.1 es ps'' ls' codes ∧
      ∀ i, (Scope.findCapture name pre.length scopes).1 = some i → i < 256 := by
  induction scopes generalizing pre es ps ls codes ps' with
  | nil =>
    cases hall
    cases hcap
    exact ⟨[], [], rfl, rfl, .nil, by rintro _ ⟨⟩⟩
  | cons s outer ih =>
    cases hall with
    | @cons _ e p l code _ es ps ls codes head tail =>
      cases tail with
      | nil =>
        cases hcap
        exact ⟨[p], [l], rfl, rfl, .cons head .nil, by rintro _ ⟨⟩⟩
      | @cons o e' p' l' code' rest es ps ls codes head' tail' =>
        rw [Scope.findCapture] at hcap ⊢
        rw [Level.findCapture]
        rcases slotOf_cases head' name with ⟨hnone, hslot⟩ | ⟨slot, v, hsome, hlt, hslot⟩
        · rw [hslot] at hcap ⊢
          rw [hnone]
          dsimp only at hcap ⊢
          have hpre : (pre ++ [p]).length = pre.length + 1 := by simp
          have hih (mid : List Prototype) := @ih (code' :: codes) (e' :: es) (pre ++ [p]) (p' :: ps) mid
            (l' :: ls) (.cons head' tail')
          rw [hpre] at hih
          obtain ⟨index, outer', found, hr⟩ : ∃ index outer' found,
              Scope.findCapture name (pre.length + 1) (o :: rest) = (index, outer', found) := ⟨_, _, _, rfl⟩
          rw [hr] at hcap hih ⊢
          rw [List.append_assoc] at hih
          cases index with
          | none =>
            obtain ⟨ps₁, ls₁, rfl, hls, hall₁, -⟩ := hih ps' hcap
            refine ⟨p :: ps₁, l :: ls₁, List.append_assoc .., ?_, .cons head hall₁, by rintro _ ⟨⟩⟩
            rw [hls]
          | some j =>
            dsimp only at hcap
            rw [capturing_append] at hcap
            obtain ⟨mid, hmid, hcap⟩ := Option.bind_eq_some_iff.mp hcap
            obtain ⟨ps₁, ls₁, rfl, hls, hall₁, hj⟩ := hih mid hmid
            rw [List.append_assoc] at hcap
            obtain ⟨p₁, rfl, hi, hlt, ha₁⟩ := addCapture_alike head (o := ⟨false, j⟩) (hj j rfl) hcap
            refine ⟨p₁ :: ps₁, (l.capture ⟨false, j⟩).2 :: ls₁, rfl, ?_, .cons ha₁ hall₁, ?_⟩
            · rw [hls]
              dsimp only
              rw [← hi]
              rfl
            · intro i hi'
              cases hi'
              exact lt_of_eq_of_lt hi hlt
        · rw [hslot] at hcap ⊢
          rw [hsome]
          dsimp only at hcap ⊢
          by_cases hv : v.depth.isNone = true
          · rw [if_pos hv] at hcap
            cases hcap
          · rw [if_neg hv] at hcap
            rw [if_neg hv]
            obtain ⟨p₁, rfl, hi, hlt₁, ha₁⟩ := addCapture_alike head (o := ⟨true, slot⟩) hlt hcap
            refine ⟨p₁ :: p' :: ps, (l.capture ⟨true, slot⟩).2 ::
              { l' with locals := captureLocal slot l'.locals } :: ls, rfl, ?_, .cons ha₁ (.cons { head' with
              locals := by rw [head'.locals]
              slots := by rw [length_captureLocal]; exact head'.slots } tail'), ?_⟩
            · rw [← hi]
              rfl
            · intro i hi'
              cases hi'
              exact lt_of_eq_of_lt hi hlt₁

theorem plan_level {l : Level} {ls : List Level} (hl : g.levels = l :: ls) :
    PlanM.level g = some (l, g) := by
  unfold PlanM.level
  rw [hl]

theorem plan_resolve_local {name : Bytes} {l : Level} {ls : List Level} {slot : Nat} {v : Local}
    (hl : g.levels = l :: ls) (hfind : findLocal name l.locals = some (slot, v))
    (hv : ¬v.depth.isNone = true) : PlanM.resolve name g = some (.slot slot, g) := by
  unfold PlanM.resolve
  rw [bind_of (plan_level hl), hfind]
  dsimp only
  rw [if_neg hv]
  rfl

theorem plan_resolve_captured {name : Bytes} {l : Level} {ls levels : List Level} {i : Nat}
    (hl : g.levels = l :: ls) (hfind : findLocal name l.locals = none)
    (hcap : Level.findCapture name g.levels = some (some i, levels)) :
    PlanM.resolve name g = some (.captured i, { g with levels }) := by
  have hget : (get : PlanM Plan) g = some (g, g) := rfl
  unfold PlanM.resolve
  rw [bind_of (plan_level hl), hfind]
  dsimp only
  rw [bind_of hget, hcap]
  rfl

theorem plan_resolve_global {name : Bytes} {l : Level} {ls levels : List Level} {k : Nat} {g' : Plan}
    (hl : g.levels = l :: ls) (hfind : findLocal name l.locals = none)
    (hcap : Level.findCapture name g.levels = some (none, levels))
    (hk : PlanM.constant (.string name) { g with levels } = some (k, g')) :
    PlanM.resolve name g = some (.global k, g') := by
  have hget : (get : PlanM Plan) g = some (g, g) := rfl
  have hset : (set { g with levels } : PlanM Unit) g = some ((), { g with levels }) := rfl
  unfold PlanM.resolve
  rw [bind_of (plan_level hl), hfind]
  dsimp only
  rw [bind_of hget, hcap]
  dsimp only
  rw [bind_of hset, bind_of hk]
  rfl

theorem accepts_resolve (name : Bytes) (h : At c prev ts g (code :: codes)) :
    Accepts (resolve name) c fun r c' => ∃ place g', PlanM.resolve name g = some (place, g') ∧
      place.index < 256 ∧ r = (place.getOp, place.setOp, place.index.toUInt8) ∧
        At c' prev ts g' (code :: codes) := by
  obtain ⟨d, s, ss, e, es, p, ps, l, ls, hd, hs, he, hp, hl, head, tail⟩ := h.inner
  have hhead : c.scopes.headD { kind := .script } = s := by
    rw [hs]
    rfl
  have hall : AllAlike c.scopes c.extents d.open_ g.levels (code :: codes) := by
    rw [hs, he, hp, hl]
    exact .cons head tail
  rcases slotOf_cases head name with ⟨hnone, hslot⟩ | ⟨slot, v, hsome, hlt, hslot⟩
  · obtain ⟨index, scopes, found, hf⟩ : ∃ index scopes found,
        Scope.findCapture name 0 c.scopes = (index, scopes, found) := ⟨_, _, _, rfl⟩
    have hwithin := (findCapture_findings name 0 c.scopes).2
    rw [hf, Nat.zero_add, hall.length_eq] at hwithin
    have halike (ps' : List Prototype) := @findCapture_alike (code :: codes) name c.scopes c.extents [] d.open_
      ps' g.levels hall
    simp only [List.length_nil, hf, List.nil_append] at halike
    refine .of_eq (resolve_other (by rw [hhead]; exact hslot) hf) ?_
    have hsearch : (found.forM report c).2.diagnostics = [] → ∃ ls',
        Level.findCapture name g.levels = some (index, ls') ∧ (∀ i, index = some i → i < 256) ∧
          At { (found.forM report c).2 with scopes } prev ts { g with levels := ls' } (code :: codes) := by
      intro hclean
      obtain ⟨d', hcap, hd', heq⟩ := accepts_reports hd h.calm hwithin hclean
      obtain ⟨ps', ls', rfl, hplan, hall', hi⟩ := halike _ hcap
      refine ⟨ls', hplan, hi, hclean, ?_, ?_, ?_, h.stream, ?_, d', hd', ?_⟩
      · rw [heq]
        exact h.calm
      · rw [heq]
        exact h.previous
      · rw [heq]
        exact h.tokens
      · rw [heq]
        exact h.classes
      · rw [heq]
        exact hall'
    cases index with
    | some i =>
      intro hclean'
      obtain ⟨ls', hplan, hi, hat⟩ := hsearch hclean'
      exact ⟨.captured i, _, plan_resolve_captured hl hnone hplan, hi i rfl, rfl, hat⟩
    | none =>
      by_cases hclean : (found.forM report c).2.diagnostics = []
      · obtain ⟨ls', hplan, -, hat⟩ := hsearch hclean
        refine .bind (accepts_nameConstant name hat) fun b c' ⟨k, g', hk, hlt, hb, hat'⟩ => ?_
        subst hb
        exact .pure ⟨.global k, g', plan_resolve_global hl hnone hplan hk, hlt, rfl, hat'⟩
      · have hreports : Reports (outerAccess name none) :=
          (inferInstance : Reports (do return (Opcode.getGlobal, Opcode.setGlobal, ← nameConstant name)))
        exact fun hclean' => absurd (hreports.clean _ hclean') hclean
  · unfold Accepts
    rw [resolve_local (by rw [hhead]; exact hslot)]
    by_cases hv : v.depth.isNone = true
    · rw [if_pos hv]
      have hne : ((do problem .ownInitializer; pure ()) c).2.diagnostics ≠ [] := problem_bind_ne h.calm
      exact fun hclean => absurd hclean hne
    · rw [if_neg hv]
      exact fun _ => ⟨.slot slot, g, plan_resolve_local hl hsome hv, hlt, rfl, h⟩

end CompileM

end Lox
