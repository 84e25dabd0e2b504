import Lox.Proofs.Compile.Spelling
import Lox.Proofs.Source.Script
import Lox.Proofs.Verify.Bytecode
import Mathlib.Data.List.Induction

namespace Lox

theorem Goes.instr_names {γ : Signature} {s : Shape} {offset : Nat} {op : Opcode} {operand : Operand}
    {next : List (Nat × Shape)} (h : Goes γ s offset (.instr op operand) next) {p : Prototype}
    (hconstants : List.Forall₂ Item.Made γ.constants p.constants) (hcaptures : γ.marks.length = p.captures) :
    p.Names op operand ∧ Template.Has s.slots.length op operand := by
  have hstring {k : Nat} {name : Bytes} (hk : γ.Names k name) : p.constants[k]? = some (.string name) := by
    obtain ⟨c, hc, hmade⟩ := forall₂_getElem?_left hconstants hk
    cases hmade
    exact hc
  have hmarks {i : Nat} {m : Mark} (hi : γ.marks[i]? = some m) : i < p.captures :=
    hcaptures ▸ (List.getElem?_eq_some_iff.mp hi).1
  have hslot {slots : List Slot} {n : Nat} {a : Slot} (hn : slots.reverse[n]? = some a) :
      n < slots.length := by
    simpa using (List.getElem?_eq_some_iff.mp hn).1
  refine ⟨⟨?_, ?_, ?_, ?_⟩, h.instr.2.1, ?_, ?_⟩
  · rintro rfl
    cases h with
    | effect he =>
      cases he with
      | number hk =>
        obtain ⟨c, hc, hmade⟩ := forall₂_getElem?_left hconstants hk
        cases hmade
        exact ⟨_, rfl, .inl ⟨_, hc⟩⟩
      | string hk => exact ⟨_, rfl, .inr ⟨_, hstring hk⟩⟩
      | literal hop | unary hop | binary hop => simp at hop
  · intro hop
    cases h with
    | effect he =>
      cases he with
      | literal hop' | unary hop' | binary hop' =>
        simp only [List.mem_cons, List.not_mem_nil, or_false] at hop'
        rcases hop' with rfl | rfl | rfl | rfl | rfl | rfl | rfl <;> cases hop
      | getGlobal hk | defineGlobal hk | defineClass hk | setGlobal hk | getProperty hk | setProperty hk | getSuper hk
      | class_ hk | method hk | invoke hk | superInvoke hk => exact ⟨_, _, rfl, hstring hk⟩
      | _ => cases hop
    | _ => cases hop
  · intro hop
    cases h with
    | effect he =>
      cases he with
      | literal hop' | unary hop' | binary hop' =>
        simp only [List.mem_cons, List.not_mem_nil, or_false] at hop'
        rcases hop' with rfl | rfl | rfl | rfl | rfl | rfl | rfl <;> simp at hop
      | getUpvalue hi | setUpvalue hi => exact ⟨_, rfl, hmarks hi⟩
      | _ => simp at hop
    | _ => simp at hop
  · rintro rfl
    cases h with
    | effect he =>
      cases he with
      | closure hk hprovides | body hk _ hprovides =>
        obtain ⟨c, hc, hmade⟩ := forall₂_getElem?_left hconstants hk
        cases hmade with
        | function _ _ hcap =>
          refine ⟨_, _, _, rfl, hc, hcap.symm, fun o ho hlocal => ?_⟩
          obtain ⟨b, -, hprovide⟩ := forall₂_mem_left hprovides ho
          have hvariable := hprovide.variable_
          rw [if_neg (by simp [hlocal])] at hvariable
          exact hmarks hvariable
      | literal hop | unary hop | binary hop => simp at hop
  · intro hop
    cases h with
    | effect he =>
      cases he with
      | literal hop' | unary hop' | binary hop' =>
        simp only [List.mem_cons, List.not_mem_nil, or_false] at hop'
        rcases hop' with rfl | rfl | rfl | rfl | rfl | rfl | rfl <;> simp at hop
      | getLocal hn | receiver hn => exact ⟨_, rfl, hslot hn⟩
      | setLocal hn => exact ⟨_, rfl, hslot hn⟩
      | _ => simp at hop
    | _ => simp at hop
  · rintro rfl k origins rfl o ho hlocal
    cases h with
    | effect he =>
      cases he with
      | closure hk hprovides | body hk _ hprovides =>
        obtain ⟨b, -, hprovide⟩ := forall₂_mem_left hprovides ho
        have hvariable := hprovide.variable_
        rw [if_pos hlocal] at hvariable
        obtain ⟨a, ha, -⟩ := hvariable
        exact hslot ha

namespace Sheet

variable {γ : Signature} {at_ : Nat → Option Shape} {a before after : Sheet} {s : Shape} {l : Line}

theorem Flow.row (h : Flow γ at_ 0 (before ++ (s, l) :: after)) :
    ∃ next, Goes γ s before.size l next ∧ ∀ r ∈ next, Admits at_ r.1 r.2 := by
  have := (flow_append.mp h).2
  rw [Nat.zero_add] at this
  exact this.1

theorem lines_eq_append {before after : List Line} (h : a.lines = before ++ after) :
    ∃ x y : Sheet, a = x ++ y ∧ x.lines = before ∧ y.lines = after :=
  List.map_eq_append_iff.mp h

theorem shapeAt_zero (a : Sheet) : (∃ s, shapeAt none a 0 = some s) ∨ a.size = 0 := by
  induction a with
  | nil => exact .inr rfl
  | cons r a ih =>
    obtain ⟨s, l⟩ := r
    cases l with
    | mark n => exact ih.imp id fun h => by rw [size_cons, h]; rfl
    | instr op operand => exact .inl ⟨s, rfl⟩

end Sheet

open Sheet

structure Certified (f : Listing Item) (p : Prototype) (a : Sheet) : Prop where
  lines : a.lines = f.code
  marks : f.marks.length = f.origins.length
  fits : a.Fits f.signature f.entry none
  made : Item.Made (.function f) (.function p)

namespace Certified

variable {f : Listing Item} {p : Prototype} {a before after : Sheet} {s : Shape} {op : Opcode}
  {operand : Operand} {offset height : Nat}

theorem code (h : Certified f p a) : p.code = Code.bytes f.code := by
  obtain ⟨-, -, -, hmade⟩ := h
  cases hmade
  assumption

theorem length_code (h : Certified f p a) : p.code.length = a.size := by
  rw [h.code, Code.length_bytes, size, h.lines]

theorem constants (h : Certified f p a) : List.Forall₂ Item.Made f.constants p.constants := by
  obtain ⟨-, -, -, hmade⟩ := h
  cases hmade
  assumption

theorem captures (h : Certified f p a) : f.marks.length = p.captures := by
  obtain ⟨-, hmarks, -, hmade⟩ := h
  cases hmade
  omega

theorem arity (h : Certified f p a) : f.arity = p.arity := by
  obtain ⟨-, -, -, hmade⟩ := h
  cases hmade
  symm
  assumption

theorem goes (h : Certified f p a) {l : Line} (ha : a = before ++ (s, l) :: after) :
    ∃ next, Goes f.signature s before.size l next ∧
      ∀ r ∈ next, Admits (shapeAt none a) r.1 r.2 := by
  have hflow := h.fits.flow
  rw [ha] at hflow
  rw [ha]
  exact Flow.row hflow

theorem bytes_at (h : Certified f p a) (ha : a = before ++ (s, .instr op operand) :: after) : operand.Fits ∧
    p.code.drop before.size = op.toByte :: (operand.bytes ++ Code.bytes after.lines) := by
  have hlines : f.code = before.lines ++ Line.instr op operand :: after.lines := by
    rw [← h.lines, ha, lines_append]
    rfl
  refine ⟨?_, ?_⟩
  · obtain ⟨-, -, -, hmade⟩ := h
    cases hmade with
    | function _ _ _ _ _ hfits => exact hfits (.instr op operand) (by rw [hlines]; simp)
  · rw [h.code, hlines, Code.bytes_append, size, ← Code.length_bytes, List.drop_left]
    rfl

theorem instrAt (h : Certified f p a) (ha : a = before ++ (s, .instr op operand) :: after) :
    p.instrAt before.size = some (op, operand) := by
  obtain ⟨next, hgoes, -⟩ := h.goes ha
  obtain ⟨hfits, hdrop⟩ := h.bytes_at ha
  have hread : Operand.read? p.constants op (operand.bytes ++ Code.bytes after.lines) = some operand := by
    refine Operand.read?_bytes hfits hgoes.instr.1 (fun k origins hk => ?_) _
    subst hk
    have hop : op = .closure := by
      have hsuits : op.operands = .closure := hgoes.instr.1
      cases op <;> first | rfl | cases hsuits
    obtain ⟨k', origins', q, hop, hq, hlength, -⟩ :=
      (hgoes.instr_names h.constants h.captures).1.closure hop
    cases hop
    exact ⟨q, hq, hlength.symm⟩
  unfold Template.instrAt
  rw [hdrop]
  simp [Opcode.ofByte?_toByte, hread]

theorem starts_lines (h : Certified f p a) (x y : Sheet) (ha : a = x ++ y) : p.Starts x.size := by
  induction x using List.reverseRecOn generalizing y with
  | nil => exact .first
  | append_singleton x r ih =>
    obtain ⟨s, l⟩ := r
    rw [List.append_assoc] at ha
    have hx := ih _ ha
    rw [size_append]
    cases l with
    | mark n => exact hx
    | instr op operand => exact hx.next (h.instrAt ha)

theorem row_of_starts (h : Certified f p a) (hs : p.Starts offset) :
    offset = a.size ∨ ∃ s, shapeAt none a offset = some s := by
  induction hs with
  | first =>
    obtain ⟨s, hs, -⟩ := h.fits.enters
    exact .inr ⟨s, hs⟩
  | @next offset op operand _ hinstr ih =>
    rcases ih with rfl | ⟨s, hs⟩
    · rw [← h.length_code] at hinstr
      simp [Template.instrAt] at hinstr
    · obtain ⟨before, op', operand', after, ha, rfl⟩ := shapeAt_instr hs
      rw [h.instrAt ha] at hinstr
      cases hinstr
      let through : Sheet := before ++ [(s, Line.instr op operand)]
      have hsplit : a = through ++ after := by simpa [through] using ha
      have hsize : size before + (1 + operand.size) = through.size + 0 := by
        rw [size_append]
        rfl
      rcases shapeAt_zero after with ⟨t, ht⟩ | hzero
      · refine .inr ⟨t, ?_⟩
        rw [hsize, hsplit, shapeAt_append_right]
        exact ht
      · refine .inl ?_
        rw [hsize, hsplit]
        show through.size + 0 = size (through ++ after)
        rw [size_append through, hzero]

theorem admitted (h : Certified f p a) (hs : Admits (shapeAt none a) offset s) :
    p.Starts offset ∧ offset < p.code.length ∧ ∃ t, shapeAt none a offset = some t ∧
      t.slots.length = s.slots.length := by
  obtain ⟨t, ht, hwithin⟩ := hs
  obtain ⟨before, op, operand, after, ha, rfl⟩ := shapeAt_instr ht
  refine ⟨h.starts_lines before _ ha, ?_, t, ht, hwithin.height.symm⟩
  rw [h.length_code, ha, size_append, size_cons]
  show _ < _ + (1 + operand.size + _)
  omega

theorem row (h : Certified f p a) (hs : p.Starts offset) (hinstr : p.instrAt offset = some (op, operand)) :
    ∃ (before : Sheet) (s : Shape) (after : Sheet), a = before ++ (s, .instr op operand) :: after ∧
      before.size = offset ∧ shapeAt none a offset = some s := by
  rcases h.row_of_starts hs with rfl | ⟨s, hs⟩
  · rw [← h.length_code] at hinstr
    simp [Template.instrAt] at hinstr
  · obtain ⟨before, op', operand', after, ha, rfl⟩ := shapeAt_instr hs
    rw [h.instrAt ha] at hinstr
    cases hinstr
    exact ⟨before, s, after, ha, rfl, hs⟩

theorem shape_of_reaches (h : Certified f p a) (hr : p.Reaches offset height) :
    p.Starts offset ∧ ∃ s, shapeAt none a offset = some s ∧ s.slots.length = height := by
  induction hr with
  | entry =>
    obtain ⟨s, hs, hwithin⟩ := h.fits.enters
    refine ⟨.first, s, hs, ?_⟩
    rw [← hwithin.height, ← h.arity]
    simp [Listing.entry]
  | @next offset target height op operand _ hinstr htarget ih =>
    obtain ⟨hstarts, s, hs, rfl⟩ := ih
    obtain ⟨before, s', after, ha, rfl, hs'⟩ := h.row hstarts hinstr
    rw [hs] at hs'
    cases hs'
    obtain ⟨next, hgoes, hnext⟩ := h.goes ha
    obtain ⟨-, -, htargets, hheights⟩ := hgoes.instr
    rw [htargets] at htarget
    obtain ⟨r, hr, htarget⟩ := List.mem_map.mp htarget
    obtain rfl := Int.ofNat.inj htarget
    obtain ⟨hstarts', -, t, ht, hlength⟩ := h.admitted (hnext r hr)
    exact ⟨hstarts', t, ht, hlength.trans (hheights r hr)⟩

theorem wellFormed (h : Certified f p a) : WellFormed f p where
  arity := h.arity.symm
  captures := by
    obtain ⟨-, -, -, hmade⟩ := h
    cases hmade
    assumption
  decodes := by
    rw [h.length_code]
    exact h.starts_lines a [] (List.append_nil a).symm
  instructions offset hs hlt := by
    rcases h.row_of_starts hs with rfl | ⟨s, hs⟩
    · rw [h.length_code] at hlt
      exact absurd hlt (Nat.lt_irrefl _)
    · obtain ⟨before, op, operand, after, ha, rfl⟩ := shapeAt_instr hs
      exact ⟨op, operand, h.instrAt ha⟩
  exact before op operand after hcode := by
    obtain ⟨x, y, ha, rfl, hy⟩ := lines_eq_append (h.lines.trans hcode)
    cases y with
    | nil => cases hy
    | cons r y =>
      obtain ⟨s, l⟩ := r
      cases hy
      exact h.instrAt ha
  targets offset op operand hs hinstr target htarget := by
    obtain ⟨before, s, after, ha, rfl, -⟩ := h.row hs hinstr
    obtain ⟨next, hgoes, hnext⟩ := h.goes ha
    rw [hgoes.instr.2.2.1] at htarget
    obtain ⟨r, hr, rfl⟩ := List.mem_map.mp htarget
    obtain ⟨hstarts, hlt, -⟩ := h.admitted (hnext r hr)
    exact ⟨r.1, rfl, hstarts, hlt⟩
  names offset op operand hs hinstr := by
    obtain ⟨before, s, after, ha, rfl, -⟩ := h.row hs hinstr
    obtain ⟨next, hgoes, -⟩ := h.goes ha
    exact (hgoes.instr_names h.constants h.captures).1
  runs offset height hr := by
    obtain ⟨-, s, hs, rfl⟩ := h.shape_of_reaches hr
    obtain ⟨before, op, operand, after, ha, rfl⟩ := shapeAt_instr hs
    obtain ⟨next, hgoes, -⟩ := h.goes ha
    exact ⟨op, operand, h.instrAt ha, (hgoes.instr_names h.constants h.captures).2⟩
  heights offset height height' hr hr' := by
    obtain ⟨-, s, hs, rfl⟩ := h.shape_of_reaches hr
    obtain ⟨-, s', hs', rfl⟩ := h.shape_of_reaches hr'
    rw [hs] at hs'
    cases hs'
    rfl
  statements before locals after hcode height hr := by
    obtain ⟨x, y, ha, rfl, hy⟩ := lines_eq_append (h.lines.trans hcode)
    cases y with
    | nil => cases hy
    | cons r y =>
      obtain ⟨s, l⟩ := r
      cases hy
      obtain ⟨next, hgoes, hnext⟩ := h.goes ha
      cases hgoes
      obtain ⟨-, -, t, ht, hlength⟩ := h.admitted (hnext _ (.head _))
      obtain ⟨-, t', ht', rfl⟩ := h.shape_of_reaches hr
      rw [show shapeAt none a (Code.size x.lines) = some t from ht] at ht'
      cases ht'
      exact hlength

end Certified

theorem Listing.Verified.wellFormed {f g : Listing Item} {p q : Prototype} (h : f.Verified)
    (hmade : Item.Made (.function f) (.function p)) (hpart : Listing.Part f p g q) :
    WellFormed g q ∧ g.Verified ∧ Item.Made (.function g) (.function q) := by
  have hwell {f : Listing Item} {p : Prototype} (h : f.Verified)
      (hmade : Item.Made (.function f) (.function p)) : WellFormed f p := by
    obtain ⟨hmarks, ⟨a, hlines, hfits⟩, -⟩ := h
    exact Certified.wellFormed ⟨hlines, hmarks, hfits, hmade⟩
  induction hpart with
  | self => exact ⟨hwell h hmade, h, hmade⟩
  | @constant g g' q q' k _ hg hq ih =>
    obtain ⟨-, ⟨-, -, -, hnested⟩, hmade'⟩ := ih
    have hverified := hnested _ (List.mem_of_getElem? hg)
    have hmade'' : Item.Made (.function g') (.function q') := by
      cases hmade' with
      | function _ _ _ _ _ _ hconstants =>
        obtain ⟨c, hc, hm⟩ := forall₂_getElem?_left hconstants hg
        rw [hq] at hc
        cases hc
        exact hm
    exact ⟨hwell hverified hmade'', hverified, hmade''⟩

namespace Heap

/-- The functions in the function at a place, outermost first. -/
inductive FunctionIn (h : Heap) (l : Loc) : Loc → Function → Prop
  | self {o : Object} {fn : Function} : h.objects[l]? = some o → o.body = .function fn → FunctionIn h l l fn
  | constant {k j : Loc} {o : Object} {fn fn' : Function} {v : Value} : FunctionIn h l k fn →
      v ∈ fn.chunk.constants.toList → h.Names v j → h.objects[j]? = some o → o.body = .function fn' →
      FunctionIn h l j fn'

variable {h : Heap} {w : World} {objects : List (Obj Routine)} {upvalues : List Captured} {l k : Loc}
  {fn : Function} {f : Listing Item} {p : Prototype}

theorem FunctionIn.part (hin : h.FunctionIn l k fn) (hp : Pictures w objects upvalues h) (ha : h.Alive l)
    (hl : w l = some (.function p)) (hmade : Item.Made (.function f) (.function p)) : ∃ g q,
      Listing.Part f p g q ∧ Item.Made (.function g) (.function q) ∧ h.ShowsFunction w fn q ∧ h.Alive k ∧
      w k = some (.function q) := by
  have hshows {k : Loc} {o : Object} {fn : Function} {q : Prototype} (ho : h.objects[k]? = some o)
      (ha : h.Alive k) (hb : o.body = .function fn) (hk : w k = some (.function q)) :
      h.ShowsFunction w fn q := by
    obtain ⟨o', ho', hfreed⟩ := ha
    rw [ho] at ho'
    cases ho'
    have := hp.depicts k o _ ho hfreed hk
    rw [hb] at this
    cases this
    assumption
  induction hin with
  | self ho hb => exact ⟨f, p, .self, hmade, hshows ho ha hb hl, ha, hl⟩
  | @constant k j o fn fn' v _ hv hnames ho hb ih =>
    obtain ⟨g, q, hpart, hmade', hshow, -⟩ := ih
    obtain ⟨n, hn⟩ := List.mem_iff_getElem?.mp hv
    obtain ⟨lit, hlit, hconstant⟩ := forall₂_getElem?_left hshow.constants hn
    have halive := hnames.alive hp.sound.consistent
    cases lit with
    | number u =>
      obtain ⟨-, hnumeral⟩ := hconstant
      have hobject := hnames.isObject
      rw [hnumeral.isObject] at hobject
      cases hobject
    | string chars =>
      obtain ⟨i, hash, hi, o', ho', -, hb'⟩ := hconstant
      obtain rfl := hnames.functional hi
      rw [ho] at ho'
      cases ho'
      rw [hb] at hb'
      cases hb'
    | function q' =>
      obtain ⟨i, hi, hw⟩ := hconstant
      obtain rfl := hnames.functional hi
      have hmade'' : ∃ g', g.constants[n]? = some (.function g') ∧ Item.Made (.function g') (.function q') := by
        cases hmade' with
        | function _ _ _ _ _ _ hconstants =>
          obtain ⟨i, hi, hm⟩ := forall₂_getElem? hconstants hlit
          cases hm with
          | function arity name captures code lines fits constants few =>
            exact ⟨_, hi, .function arity name captures code lines fits constants few⟩
      obtain ⟨g', hg', hmade''⟩ := hmade''
      exact ⟨g', q', .constant hpart hg' hlit, hmade'', hshows ho halive hb hw, halive, hw⟩

end Heap

open Heap HeapM

theorem accepted_of_compile {r : Roots} {h h' : Heap} {source : Bytes} {l : Loc}
    (hrun : compile source r h = .ok (.ok l) h') : (analyze source).2 = [] := by
  unfold compile at hrun
  generalize analyze source = result at hrun
  obtain ⟨orders, diagnostics⟩ := result
  dsimp only at hrun ⊢
  rw [run_bind] at hrun
  cases hrest : build orders r h with
  | error e h₁ =>
    rw [hrest] at hrun
    cases hrun
  | ok s h₁ =>
    rw [hrest] at hrun
    cases hended : s.ended with
    | none =>
      simp only [hended] at hrun
      cases hrun
    | some k =>
      simp only [hended] at hrun
      cases diagnostics with
      | nil => rfl
      | cons d ds => cases hrun

theorem compile_pictured {r : Roots} {h h' : Heap} {source : Bytes} {l : Loc} (hs : h.Sound)
    (hlinked : h.Linked) (hopen : h.closed = false) (hr : h.Rooted r)
    (hrun : compile source r h = .ok (.ok l) h') : h'.Exhausted ∨ ∃ body f p w objects upvalues,
      parse? (Token.scan source) = some body ∧ scriptListing body = some f ∧
      Item.Made (.function f) (.function p) ∧ Pictures w objects upvalues h' ∧ h'.Alive l ∧
      w l = some (.function p) := by
  have hp := pictures_nothing hs hlinked hopen
  obtain ⟨body, f, p, hparse, hlisting, hdraft, hmade⟩ := analyze_accepted (accepted_of_compile hrun)
  have hdelivers := delivers_compile hp hr hdraft
  unfold Delivers at hdelivers
  rw [hrun] at hdelivers
  refine hdelivers.imp_right ?_
  rintro ⟨w, -, hp', -, -, -, halive, hl⟩
  exact ⟨body, f, p, w, _, _, hparse, hlisting, hmade, hp', halive, hl⟩

theorem compile_spelled {r : Roots} {h h' : Heap} {source : Bytes} {l : Loc} (hs : h.Sound)
    (hlinked : h.Linked) (hopen : h.closed = false) (hr : h.Rooted r)
    (hrun : compile source r h = .ok (.ok l) h') : h'.Exhausted ∨ ∃ body f p,
      parse? (Token.scan source) = some body ∧ scriptListing body = some f ∧
      Item.Made (.function f) (.function p) ∧ h'.Spells l p ∧
      ∀ k fn, h'.FunctionIn l k fn → ∃ g q, Listing.Part f p g q ∧ h'.Spells k q := by
  refine (compile_pictured hs hlinked hopen hr hrun).imp_right ?_
  rintro ⟨body, f, p, w, objects, upvalues, hparse, hlisting, hmade, hp, ha, hw⟩
  refine ⟨body, f, p, hparse, hlisting, hmade, hp.spells p l ha hw, fun k fn hin => ?_⟩
  obtain ⟨g, q, hpart, -, -, halive, hk⟩ := hin.part hp ha hw hmade
  exact ⟨g, q, hpart, hp.spells q k halive hk⟩

/-- A source text that is accepted comes to a function on the heap, and that function and all functions
in it are well formed, with the listings that the syntax tree of the text gives. -/
theorem compile_wellFormed {r : Roots} {h h' : Heap} {source : Bytes} {l : Loc} (hs : h.Sound)
    (hlinked : h.Linked) (hopen : h.closed = false) (hr : h.Rooted r)
    (hrun : compile source r h = .ok (.ok l) h') : h'.Exhausted ∨ ∃ body f p,
      parse? (Token.scan source) = some body ∧ scriptListing body = some f ∧
      Item.Made (.function f) (.function p) ∧ h'.Spells l p ∧
      (∀ g q, Listing.Part f p g q → WellFormed g q) ∧
      ∀ k fn, h'.FunctionIn l k fn → ∃ g q, Listing.Part f p g q ∧ h'.Spells k q := by
  refine (compile_spelled hs hlinked hopen hr hrun).imp_right ?_
  rintro ⟨body, f, p, hparse, hlisting, hmade, hspells, hparts⟩
  have hverified := (scriptListing_verified hlisting).1
  exact ⟨body, f, p, hparse, hlisting, hmade, hspells,
    fun g q hpart => (hverified.wellFormed hmade hpart).1, hparts⟩

def acceptsNew (source : Bytes) : Bool :=
  match compile source (fun _ => []) (Heap.new {}) with
  | .ok (.ok _) h' => decide (h'.slots.size ≤ 2 ^ 32)
  | _ => false

theorem accepts_new (source : Bytes) (h : acceptsNew source = true) : ∃ l h',
    compile source (fun _ => []) (Heap.new {}) = .ok (.ok l) h' ∧ ¬ h'.Exhausted := by
  unfold acceptsNew at h
  split at h
  · next l h' hrun => exact ⟨l, h', hrun, Nat.not_lt.mpr (of_decide_eq_true h)⟩
  · cases h

theorem accepts_new_call : ∃ l h', compile "fun f(a) { return a; } print f(1);" (fun _ => []) (Heap.new {}) =
    .ok (.ok l) h' ∧ ¬ h'.Exhausted :=
  accepts_new _ (by decide +kernel)

theorem rooted_new : (Heap.new {}).Rooted (fun _ => []) := nofun

theorem compile_wellFormed_call : ∃ l h', compile "fun f(a) { return a; } print f(1);" (fun _ => [])
    (Heap.new {}) = .ok (.ok l) h' ∧ ∃ body f p,
      parse? (Token.scan "fun f(a) { return a; } print f(1);") = some body ∧ scriptListing body = some f ∧
      Item.Made (.function f) (.function p) ∧ h'.Spells l p ∧
      (∀ g q, Listing.Part f p g q → WellFormed g q) ∧
      ∀ k fn, h'.FunctionIn l k fn → ∃ g q, Listing.Part f p g q ∧ h'.Spells k q := by
  obtain ⟨l, h', hrun, hroom⟩ := accepts_new_call
  have hp := pictures_new {}
  exact ⟨l, h', hrun, (compile_wellFormed hp.sound hp.linked hp.closed rooted_new hrun).resolve_left hroom⟩

end Lox
