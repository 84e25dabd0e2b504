import Lox.Proofs.Disassembly.Listed
import Lox.Proofs.Machine.Frames

namespace Lox

open Heap HeapView HeapM MachineM

structure Heap.Stays (h : Heap) (l : Loc) (h' : Heap) : Prop where
  functions : ∀ k fn, h.FunctionIn l k fn → functionAt k h' = .ok fn
  names : ∀ k fn, h.FunctionIn l k fn → ∀ v ∈ fn.chunk.constants.toList, ∀ j, h.Names v j → h'.Names v j

theorem Heap.Evolves.stays {h h' : Heap} {roots : List Link} {l : Loc} (he : h.Evolves roots h')
    (hc : h.Consistent) (hi : h.Intact roots) (hr : h.Reach roots l) : h.Stays l h' := by
  have hlink {k : Loc} {fn : Function} {o : Object} (ho : h.objects[k]? = some o) (hb : o.body = .function fn)
      {v : Value} (hv : v ∈ fn.chunk.constants.toList) : .value v ∈ h.linksAt k := by
    simp only [linksAt, ho, hb, Body.links]
    exact List.mem_append_right _ (List.mem_map_of_mem hv)
  have hreach {k : Loc} {fn : Function} (hin : h.FunctionIn l k fn) :
      h.Reach roots k ∧ ∃ o, h.objects[k]? = some o ∧ o.body = .function fn := by
    induction hin with
    | self ho hb => exact ⟨hr, _, ho, hb⟩
    | constant _ hv hn ho hb ih =>
      obtain ⟨hk, o, hok, hbk⟩ := ih
      exact ⟨.link hk (hlink hok hbk hv) hn.leads, _, ho, hb⟩
  refine ⟨fun k fn hin => ?_, fun k fn hin v hv j hn => ?_⟩
  · obtain ⟨hk, o, ho, hb⟩ := hreach hin
    exact functionAt_eq_ok.mpr ⟨o, by rw [he.kept k hk (hi.alive hk), ho], hb⟩
  · obtain ⟨hk, o, ho, hb⟩ := hreach hin
    have hj : h.Reach roots j := .link hk (hlink ho hb hv) hn.leads
    obtain ⟨ref, rfl, hf⟩ := hn
    exact ⟨ref, rfl, he.find?_of_alive hc hf (he.alive_of_reach hj (hi.alive hj))⟩

def Machine.past (m : Machine) (f : Frame) : Machine :=
  { m with calls := m.calls.jumpTo (f.ip + 1) }

def IsTarget (line : Bytes) (target : Nat) : Prop :=
  ∃ start, line = start ++ (" -> " : Bytes) ++ Bytes.ofInt target ++ ("\n" : Bytes)

structure Machine.CarriesOut (op : Opcode) (line : Bytes) (next : Nat) (m : Machine) (f : Frame) (rest : List Frame) :
    Prop where
  opcode : ∃ b, readByte m = .ok b (m.past f) ∧ Opcode.ofByte? b = some op
  step : step m = if op = .return_ then leave (m.past f) else (do execute op; return true) (m.past f)
  fetched : (∀ backward, op.operands ≠ .jump backward) →
    Fetched { f with ip := f.ip + 1 } rest next (execute op (m.past f))
  jump : op = .jump ∨ op = .loop → ∃ target m', IsTarget line target ∧ execute op (m.past f) = .ok () m' ∧
    m'.calls.frames = { f with ip := target } :: rest
  branch : op = .jumpIfFalse → ∀ v, peek 0 m = .ok v m → ∃ target m', IsTarget line target ∧
    execute op (m.past f) = .ok () m' ∧
      m'.calls.frames = { f with ip := if v.isFalsey then target else next } :: rest

def Agrees (h : Heap) (l : Loc) (fn : Function) (offset : Nat) : Prop :=
  ∃ op line next, listInstruction fn.chunk offset h = .ok (line, next) ∧ next ≤ fn.chunk.code.size ∧
    (∃ margin rest, line = margin ++ (Bytes.ofString op.mnemonic ++ rest)) ∧
    ∀ m f rest, h.Stays l m.heap → Executes m f rest fn → f.ip = offset → Machine.CarriesOut op line next m f rest

theorem Operand.size_of_read? {constants : List Literal} {op : Opcode} {bytes : List UInt8} {operand : Operand}
    (h : Operand.read? constants op bytes = some operand) (hop : op.operands ≠ .closure) :
    operand.size = fetched op := by
  unfold Operand.read? at h
  unfold fetched
  split at h
  case h_6 hoperands => exact absurd hoperands hop
  case h_7 => cases h
  all_goals
    rename_i hoperands
    cases h
    rw [hoperands]
    rfl

theorem MachineM.Executes.past {m : Machine} {f : Frame} {rest : List Frame} {fn : Function}
    (h : Executes m f rest fn) : Executes (m.past f) { f with ip := f.ip + 1 } rest fn :=
  h.jumpTo (f.ip + 1)

namespace Heap.Lists

variable {h : Heap} {w : World} {objects : List (Obj Routine)} {upvalues : List Captured} {fn : Function}
  {q : Prototype} {g : Listing Item} {offset : Nat} {op : Opcode} {operand : Operand}

theorem code_get? (hl : h.Lists w fn q g) (i : Nat) : fn.chunk.code.get? i = q.code[i]? := by
  rw [Growable.get?_eq, hl.shows.code]

theorem IsLine.forward {line : Bytes} {distance : Nat} (h : IsLine op (.short distance) offset line)
    (hop : op ≠ .loop) : IsTarget line (offset + 1 + 2 + distance) := by
  obtain ⟨start, hstart⟩ := h.target distance rfl
  refine ⟨start, ?_⟩
  rw [hstart, Lists.target, if_neg hop]
  rfl

theorem IsLine.backward {line : Bytes} {distance : Nat} (h : IsLine .loop (.short distance) offset line)
    (hle : distance ≤ offset + 3) : IsTarget line (offset + 1 + 2 - distance) := by
  obtain ⟨start, hstart⟩ := h.target distance rfl
  refine ⟨start, ?_⟩
  have htarget : ((offset + 1 + 2 - distance : Nat) : Int) = (offset : Int) + 3 - distance := by omega
  rw [hstart, Lists.target, if_pos rfl, htarget]

section Machine

variable {m : Machine} {f : Frame} {rest : List Frame}

theorem short (hl : h.Lists w fn q g) {backward : Bool} (hinstr : q.instrAt offset = some (op, operand))
    (hop : op.operands = .jump backward) : ∃ hi lo, operand = .short (hi.toNat * 256 + lo.toNat) ∧
      fn.chunk.code.get? (offset + 1) = some hi ∧ fn.chunk.code.get? (offset + 1 + 1) = some lo := by
  obtain ⟨b, bytes, hdrop, -, hread⟩ := Template.instrAt_some hinstr
  have hrest := (Template.getElem?_of_drop hdrop).2
  unfold Operand.read? at hread
  rw [hop] at hread
  match bytes, hread with
  | hi :: lo :: tail, hread =>
    cases hread
    exact ⟨hi, lo, rfl, by rw [hl.code_get?]; exact hrest 0, by rw [hl.code_get?]; exact hrest 1⟩

variable (hl : h.Lists w fn q g) (hexec : Executes m f rest fn) (hinstr : q.instrAt f.ip = some (op, operand))

include hl hexec hinstr

theorem opcode : ∃ b, readByte m = .ok b (m.past f) ∧ Opcode.ofByte? b = some op := by
  obtain ⟨b, bytes, hdrop, hop, -⟩ := Template.instrAt_some hinstr
  exact ⟨b, hexec.readByte (by rw [hl.code_get?, (Template.getElem?_of_drop hdrop).1]), hop⟩

theorem step : MachineM.step m =
    if op = .return_ then leave (m.past f) else (do execute op; return true : MachineM Bool) (m.past f) := by
  obtain ⟨b, hb, hop⟩ := hl.opcode hexec hinstr
  unfold MachineM.step
  rw [runBind, hb]
  dsimp only
  rw [hop]
  cases op <;> rfl

omit hl in
theorem fetched_plain (hjump : ∀ backward, op.operands ≠ .jump backward) (hclosure : op.operands ≠ .closure) :
    Fetched { f with ip := f.ip + 1 } rest (f.ip + (1 + operand.size)) (execute op (m.past f)) := by
  obtain ⟨b, bytes, -, -, hread⟩ := Template.instrAt_some hinstr
  have hfetches := fetches_execute hjump hclosure (m.past f) _ rest hexec.past.frames
  rw [Operand.size_of_read? hread hclosure, ← Nat.add_assoc]
  exact hfetches

theorem fetched_closure (hp : Pictures w objects upvalues h) {l k : Loc} (hin : h.FunctionIn l k fn)
    (hstays : h.Stays l m.heap) (hop : op.operands = .closure) :
    Fetched { f with ip := f.ip + 1 } rest (f.ip + (1 + operand.size)) (execute op (m.past f)) := by
  obtain rfl : op = .closure := by cases op <;> first | rfl | cases hop
  obtain ⟨c, bytes, hdrop, -, hread⟩ := Template.instrAt_some hinstr
  have hrest := (Template.getElem?_of_drop hdrop).2
  cases bytes with
  | nil => cases hread
  | cons b bytes =>
    change Operand.read? q.constants .closure (b :: bytes) = some operand at hread
    simp only [Operand.read?, Opcode.operands] at hread
    cases hconstant : q.constants[b.toNat]? with
    | none =>
      rw [hconstant] at hread
      cases hread
    | some c =>
      rw [hconstant] at hread
      cases c with
      | number | string => cases hread
      | function q' =>
        obtain ⟨origins, horigins, rfl⟩ := Option.map_eq_some_iff.mp hread
        obtain ⟨v, -, hget, j, hn, hw⟩ := hl.constantAt hconstant
        obtain ⟨fn', hfn', hshows', -⟩ := hp.function (hn.alive hp.sound.consistent) hw
        obtain ⟨o, ho, hbody⟩ := functionAt_eq_ok.mp hfn'
        have hv : v ∈ fn.chunk.constants.toList := by
          rw [Growable.get?_eq] at hget
          exact List.mem_of_getElem? hget
        have hloc := (hstays.names k fn hin v hv j hn).locOfValue
        have hfunction := hstays.functions j fn' (.constant hin hv hn ho hbody)
        obtain ⟨hsure, hok⟩ := hexec.past.closure (b := b) (by rw [hl.code_get?]; exact hrest 0) hget hloc hfunction
        have hsize : f.ip + (1 + (Operand.closure b.toNat origins).size) =
            f.ip + 1 + (1 + 2 * fn'.upvalueCount.toNat) := by
          rw [hshows'.captures, Int.toNat_natCast, ← (Origin.length_read? horigins).1]
          simp only [Operand.size]
          omega
        rw [hsize]
        cases hrun : execute .closure (m.past f) with
        | ok u m' => exact ⟨[], hok m' hrun⟩
        | error e m' =>
          cases e with
          | fault e => trivial
          | error e => exact absurd hrun (hsure e m')

end Machine

theorem agrees (hp : Pictures w objects upvalues h) (hl : h.Lists w fn q g) {l k : Loc}
    (hin : h.FunctionIn l k fn) (hs : q.Starts offset) (hlt : offset < q.code.length) :
    Agrees h l fn offset := by
  obtain ⟨op, operand, hinstr⟩ := hl.wellFormed.instructions offset hs hlt
  obtain ⟨hle, line, hline, hisline⟩ := hl.listInstruction hp hs hinstr
  have hsize : fn.chunk.code.size = q.code.length := by
    rw [← Growable.length_toList, hl.shows.code]
  refine ⟨op, line, _, hline, hsize ▸ hle, hisline.names, ?_⟩
  rintro m f rest hstays hexec rfl
  refine {
    opcode := hl.opcode hexec hinstr
    step := hl.step hexec hinstr
    fetched := fun hjump => ?_
    jump := ?_
    branch := fun hop v hv => ?_ }
  · by_cases hclosure : op.operands = .closure
    · exact hl.fetched_closure hexec hinstr hp hin hstays hclosure
    · exact fetched_plain hexec hinstr hjump hclosure
  · rintro (rfl | rfl)
    · obtain ⟨hi, lo, rfl, hhi, hlo⟩ := hl.short hinstr rfl
      obtain ⟨m', hrun, hframes⟩ := hexec.past.jump hhi hlo
      exact ⟨_, m', hisline.forward (by simp), hrun, hframes⟩
    · obtain ⟨hi, lo, rfl, hhi, hlo⟩ := hl.short hinstr rfl
      have hle := hl.loop_le hs hinstr
      obtain ⟨m', hrun, hframes⟩ := hexec.past.jumpBack hhi hlo hle
      exact ⟨_, m', hisline.backward hle, hrun, hframes⟩
  · subst hop
    obtain ⟨hi, lo, rfl, hhi, hlo⟩ := hl.short hinstr rfl
    have hpeek := peek_calls (m.calls.jumpTo (f.ip + 1)) hv
    obtain ⟨m', hrun, hframes⟩ := hexec.past.jumpIfFalse hhi hlo hpeek
    exact ⟨_, m', hisline.forward (by simp), hrun, hframes⟩

end Heap.Lists

/-- A source text that is accepted is listed with a section for each of its functions and methods, and the
listing of every instruction agrees with what the machine does. -/
theorem compile_disassembles {r : Roots} {h h' : Heap} {source : Bytes} {l : Loc} (hs : h.Sound)
    (hlinked : h.Linked) (hopen : h.closed = false) (hr : h.Rooted r)
    (hrun : compile source r h = .ok (.ok l) h') : h'.Exhausted ∨ ∃ body f gs w texts,
      parse? (Token.scan source) = some body ∧ scriptListing body = some f ∧
      List.Forall₂ Listing.Renders (Stmt.functionsOfAll body) gs ∧
      disassemble l h' = .ok texts.flatten ∧ List.Forall₂ (h'.Sections w l) (f :: gs) texts ∧
      ∀ k fn, h'.FunctionIn l k fn → ∃ g q, h'.Lists w fn q g ∧
        ∀ offset, q.Starts offset → offset < q.code.length → Agrees h' l fn offset := by
  refine (compile_pictured hs hlinked hopen hr hrun).imp_right ?_
  rintro ⟨body, f, p, w, objects, upvalues, hparse, hlisting, hmade, hp, ha, hw⟩
  have hverified := (scriptListing_verified hlisting).1
  obtain ⟨gs, hfunctions, -, -, hrenders, -⟩ := scriptListing_functions hlisting
  obtain ⟨texts, hdisassemble, hsections⟩ := disassemble_lists hp ha hw hmade hverified
  rw [hfunctions] at hsections
  refine ⟨body, f, gs, w, texts, hparse, hlisting, hrenders, hdisassemble, hsections, fun k fn hin => ?_⟩
  obtain ⟨g, q, hpart, hmade', hshows, -⟩ := hin.part hp ha hw hmade
  have hl : h'.Lists w fn q g := ⟨hshows, hmade', (hverified.wellFormed hmade hpart).2.1⟩
  exact ⟨g, q, hl, fun offset hstarts hlt => hl.agrees hp hin hstarts hlt⟩

theorem compile_disassembles_call : ∃ l h', compile "fun f(a) { return a; } print f(1);" (fun _ => [])
    (Heap.new {}) = .ok (.ok l) h' ∧ ∃ body f gs w texts,
      parse? (Token.scan "fun f(a) { return a; } print f(1);") = some body ∧ scriptListing body = some f ∧
      List.Forall₂ Listing.Renders (Stmt.functionsOfAll body) gs ∧
      disassemble l h' = .ok texts.flatten ∧ List.Forall₂ (h'.Sections w l) (f :: gs) texts ∧
      ∀ k fn, h'.FunctionIn l k fn → ∃ g q, h'.Lists w fn q g ∧
        ∀ offset, q.Starts offset → offset < q.code.length → Agrees h' l fn offset := by
  obtain ⟨l, h', hrun, hroom⟩ := accepts_new_call
  have hp := pictures_new {}
  exact ⟨l, h', hrun, (compile_disassembles hp.sound hp.linked hp.closed rooted_new hrun).resolve_left hroom⟩

end Lox
