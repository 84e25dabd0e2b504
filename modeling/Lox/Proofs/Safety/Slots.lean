import Lox.Proofs.Machine.Ledger
import Lox.Proofs.Safety.Run
import Lox.Proofs.Safety.Turned

namespace Lox

def Opcode.spends : Opcode → Operand → Nat
  | pop, _ | print, _ | defineGlobal, _ | closeUpvalue, _ | getProperty, _ | not, _ | negate, _ | inherit, _
  | method, _ => 1
  | setProperty, _ | getSuper, _ | equal, _ | greater, _ | less, _ | add, _ | subtract, _ | multiply, _ | divide, _ => 2
  | call, .byte n => n + 1
  | invoke, .pair _ n => n + 1
  | superInvoke, .pair _ n => n + 2
  | _, _ => 0

theorem Goes.spends {γ : Signature} {s : Shape} {offset : Nat} {op : Opcode} {operand : Operand}
    {next : List (Nat × Shape)} (h : Goes γ s offset (.instr op operand) next) (hclose : op ≠ .closeUpvalue) :
    op.spends operand ≤ s.slots.length ∧ ∀ a ∈ s.slots.take (op.spends operand), a.held = false := by
  have hargs {n : Nat} {args slots : List Slot} (hlength : args.length = n) (hfree : ∀ a ∈ args, a.held = false) :
      n ≤ (args ++ slots).length ∧ ∀ a ∈ (args ++ slots).take n, a.held = false := by
    subst hlength
    rw [List.take_left]
    exact ⟨by simp, hfree⟩
  cases h with
  | effect he =>
    cases he with
    | literal hop | unary hop | binary hop =>
      simp only [List.mem_cons, List.not_mem_nil, or_false] at hop
      rcases hop with rfl | rfl | rfl | rfl | rfl | rfl | rfl <;> simp [Opcode.spends]
    | call hargs' hfree => exact hargs hargs' hfree
    | invoke _ hargs' hfree => exact hargs hargs' hfree
    | @superInvoke slots k name n args _ hargs' hfree =>
      exact hargs (show (⟨.parent, false⟩ :: args).length = n + 2 by simp [hargs'])
        (List.forall_mem_cons.mpr ⟨rfl, hfree⟩)
    | closeUpvalue => exact absurd rfl hclose
    | _ => simp [Opcode.spends]
  | _ => simp [Opcode.spends]

def Captured.shut (stack : List Val) (low : Nat) : Captured → Captured
  | .slot n => if low ≤ n then (stack[n]?.map Captured.closed).getD (.slot n) else .slot n
  | .closed v => .closed v

namespace Ideal

structure Sheds (i : Ideal) (low : Nat) (i' : Ideal) : Prop where
  low_le : low ≤ i.stack.length
  low_le' : low ≤ i'.stack.length
  stack : i'.stack.take low = i.stack.take low
  upvalues : i'.upvalues = i.upvalues.map (Captured.shut i.stack low)
  closures : ∀ (a : Nat) r, i'.objects[a]? = some (.closure r) ↔ i.objects[a]? = some (.closure r)

def filledFrom (i : Ideal) (op : Opcode) (i' : Ideal) : Nat :=
  if i.frames.length < i'.frames.length then (i'.frames.head?.map (·.base)).getD 0
  else if op.fills then i'.stack.length - 1 else i'.stack.length

variable {Γ : Facts} {i i' : Ideal} {f : Activation} {rest : List Activation} {p : Prototype} {a : Sheet} {s t : Shape}
    {c' : Content}
  {slots below : List Slot} {known : Option Underway} {x : Slot} {c k low last n u : Nat} {op : Opcode}
  {operand : Operand}
  {e : Ending} {us : List (Nat × Nat)} {next : List (Nat × Shape)}

theorem length_calls (i : Ideal) : i.calls.length = i.frames.length :=
  List.length_map _

theorem Typed.map_shut (h : i.Typed Γ c slots) (hlow : ∀ w ∈ i.openUpvalues, w.1 < low) (stack : List Val) :
    i.upvalues.map (Captured.shut stack low) = i.upvalues := by
  refine (List.map_congr_left fun v hv => ?_).trans (List.map_id _)
  obtain ⟨u, hu⟩ := List.mem_iff_getElem?.mp hv
  cases v with
  | slot n =>
    have := hlow _ ((h.listed n u).mp hu)
    exact if_neg (Nat.not_le.mpr this)
  | closed v => rfl

theorem Typed.below_open {news : List Slot} (h : i.Typed Γ c (news ++ slots)) (hfree : ∀ x ∈ news, x.held = false) :
    ∀ w ∈ i.openUpvalues, w.1 < slots.length := by
  intro w hw
  obtain ⟨y, hy, hheld, -⟩ := h.held w.1 w.2 hw
  exact (Typed.below_of_held hfree hy hheld).1

namespace Running

open IdealM

theorem sheds (h : i.Running Γ f rest p a s below) (ht : i.Turned k e i') (hk : k ≤ s.slots.length)
    (hfree : ∀ x ∈ s.slots.take k, x.held = false) (hdrops : e = .drops → op.fills = false)
    (hfills : e = .fills → op.fills = true) : i.Sheds (i.filledFrom op i') i' := by
  have hlength := h.length_stack
  have htyped := h.typed
  rw [← List.take_append_drop k s.slots, List.append_assoc] at htyped
  have hlow := htyped.below_open hfree
  rw [List.length_append, List.length_drop] at hlow
  have hfrom : i.filledFrom op i' = i.stack.length - k ∧ i.stack.length - k ≤ i'.stack.length := by
    have hends := ht.ends
    unfold filledFrom
    rw [← length_calls, ← length_calls]
    cases e with
    | drops =>
      rw [hends.1, if_neg (Nat.lt_irrefl _), hdrops rfl, hends.2]
      exact ⟨rfl, Nat.le_refl _⟩
    | fills =>
      rw [hends.1, if_neg (Nat.lt_irrefl _), hfills rfl, hends.2]
      exact ⟨rfl, Nat.le_succ _⟩
    | enters =>
      obtain ⟨⟨c, hc⟩, hle⟩ := hends
      refine ⟨?_, hle⟩
      rw [if_pos (by rw [hc]; exact Nat.lt_succ_self _)]
      have hhead : i'.frames.head?.map (·.base) = some (i.stack.length - k) := by
        have := congrArg (fun l => l.head?.map Prod.snd) hc
        simpa [calls, Function.comp_def] using this
      rw [hhead]
      rfl
  rw [hfrom.1]
  refine ⟨Nat.sub_le _ _, hfrom.2, ht.stack, ?_, ht.closures⟩
  rw [ht.upvalues, h.typed.map_shut fun w hw => ?_]
  have := hlow w hw
  omega

theorem execute_sheds (h : i.Running Γ f rest p a s below)
    (hgoes : Goes (Γ.listing f.closure).signature s n (.instr op operand) next) (hfits : operand.Fits)
    (hb : p.Ahead f.ip operand.bytes)
    (hop : op ≠ .setLocal ∧ op ≠ .setUpvalue ∧ op ≠ .closure ∧ op ≠ .closeUpvalue ∧ op ≠ .return_) :
    Brings i (execute op) fun _ i' => i.Sheds (i.filledFrom op i') i' := by
  obtain ⟨hk, hfree⟩ := hgoes.spends hop.2.2.2.1
  have hdrops {x : IdealM Unit} (ht : Turns (op.spends operand) .drops x) (hfills : op.fills = false) :
      Brings i x fun _ i' => i.Sheds (i.filledFrom op i') i' :=
    (ht i).imp fun _ i' h' => h.sheds h' hk hfree (fun _ => hfills) nofun
  have hfills {x : IdealM Unit} (ht : Turns (op.spends operand) .fills x) (hfills : op.fills = true) :
      Brings i x fun _ i' => i.Sheds (i.filledFrom op i') i' :=
    (ht i).imp fun _ i' h' => h.sheds h' hk hfree nofun fun _ => hfills
  have hanswers {ip : Nat} {i' : Ideal} (hfills : op.fills = true) (ht : (i.moved ip).Turned (op.spends operand) .fills
      i' ∨
      (i.moved ip).Turned (op.spends operand) .enters i') : i.Sheds (i.filledFrom op i') i' := by
    rcases ht with ht | ht
    · exact h.sheds ht.of_moved hk hfree nofun fun _ => hfills
    · exact h.sheds ht.of_moved hk hfree nofun nofun
  cases hgoes with
  | effect he =>
    cases he with
    | number | string => exact hfills turns_constant rfl
    | literal hop' =>
      simp only [List.mem_cons, List.not_mem_nil, or_false] at hop'
      rcases hop' with rfl | rfl | rfl <;> exact hfills (turns_push _) rfl
    | pop | complete => exact hdrops turns_drop rfl
    | closeUpvalue => exact absurd rfl hop.2.2.2.1
    | getLocal | receiver => exact hfills turns_getLocal rfl
    | setLocal => exact absurd rfl hop.1
    | getGlobal => exact hfills turns_getGlobal rfl
    | defineGlobal | defineClass => exact hdrops turns_defineGlobal rfl
    | setGlobal => exact hdrops turns_assignGlobal rfl
    | getUpvalue => exact hfills turns_getUpvalue rfl
    | setUpvalue => exact absurd rfl hop.2.1
    | getProperty => exact hfills turns_getProperty rfl
    | setProperty => exact hfills turns_setProperty rfl
    | getSuper => exact hfills turns_getSuper rfl
    | unary hop' =>
      simp only [List.mem_cons, List.not_mem_nil, or_false] at hop'
      rcases hop' with rfl | rfl
      · exact hfills turns_not rfl
      · exact hfills turns_negate rfl
    | binary hop' =>
      simp only [List.mem_cons, List.not_mem_nil, or_false] at hop'
      rcases hop' with rfl | rfl | rfl | rfl | rfl | rfl | rfl
      · exact hfills turns_equal rfl
      · exact hfills (turns_numeric _) rfl
      · exact hfills (turns_numeric _) rfl
      · exact hfills turns_add rfl
      · exact hfills (turns_numeric _) rfl
      · exact hfills (turns_numeric _) rfl
      · exact hfills (turns_numeric _) rfl
    | print => exact hdrops turns_printTop rfl
    | @call slots count args =>
      obtain ⟨hread, hnat, -⟩ := h.readOperand hfits hb
      refine .step hread ?_
      rw [hnat]
      refine (Brings.peek (d := count)).bind ?_
      rintro v _ ⟨rfl, -⟩
      exact (answers_callValue v count _).imp fun _ _ => hanswers rfl
    | @invoke slots k' name count args hname =>
      obtain ⟨hread, hread', hnat, -⟩ := h.readNamed hname hfits.1 hfits.2 hb
      refine .step hread (.step hread' ?_)
      rw [hnat]
      exact (answers_invoke name count _).imp fun _ _ => hanswers rfl
    | @superInvoke slots k' name count args hname =>
      obtain ⟨hread, hread', hnat, -⟩ := h.readNamed hname hfits.1 hfits.2 hb
      have hturns : Turns (count + 2) .enters (do IdealM.invokeFromClass (← popClass) name count) := by
        have := turns_popClass.bind fun l => turns_invokeFromClass l name count
        rwa [Nat.add_comm] at this
      refine .step hread (.step hread' ?_)
      rw [hnat]
      exact (hturns _).imp fun _ _ ht => hanswers rfl (.inr ht)
    | closure | body => exact absurd rfl hop.2.2.1
    | class_ => exact hfills turns_makeClass rfl
    | inherit => exact hdrops turns_inherit rfl
    | method => exact hdrops turns_defineMethod rfl
  | jump => exact hdrops (Turns.idle_bind fun _ => Idle.turns) rfl
  | jumpIfFalse => exact hdrops (Idle.turns (x := IdealM.jumpIfFalse)) rfl
  | loop => exact hdrops (Idle.turns (x := IdealM.jumpBack)) rfl
  | return_ => exact absurd rfl hop.2.2.2.2

theorem closeFrom_brings (h : i.Typed Γ c slots) (hus : i.openUpvalues = us) : Brings i (IdealM.closeFrom last us)
    fun _ i' =>
    ∃ opened, i' = { i with upvalues := i.upvalues.map (Captured.shut i.stack last), openUpvalues := opened } := by
  induction us generalizing i with
  | nil =>
    refine .pure ⟨i.openUpvalues, ?_⟩
    rw [h.map_shut (by rw [hus]; nofun)]
  | cons w us ih =>
    obtain ⟨n, u⟩ := w
    unfold IdealM.closeFrom
    split
    · rename_i hlast
      refine Brings.readSlot.bind ?_
      rintro v i ⟨rfl, hv⟩
      refine .step rfl ((ih (h.close hus hv) rfl).imp ?_)
      rintro _ i' ⟨opened, rfl⟩
      refine ⟨opened, ?_⟩
      have hu : i.upvalues[u]? = some (.slot n) := (h.listed n u).mpr (by rw [hus]; exact .head _)
      have hshut : (i.upvalues.map (Captured.shut i.stack last))[u]? = some (.closed v) := by
        rw [List.getElem?_map, hu]
        simp [Captured.shut, hlast, hv]
      obtain ⟨hlt, hget⟩ := List.getElem?_eq_some_iff.mp hshut
      dsimp only
      rw [List.map_set, show Captured.shut i.stack last (.closed v) = .closed v from rfl, ← hget, List.set_getElem_self]
    · rename_i hlast
      refine .pure ⟨i.openUpvalues, ?_⟩
      rw [h.map_shut fun w hw => ?_]
      have hdescending := h.descending
      rw [hus] at hdescending hw
      rcases List.mem_cons.mp hw with rfl | hw
      · exact Nat.lt_of_not_le hlast
      · exact Nat.lt_trans ((List.pairwise_cons.mp hdescending).1 w hw) (Nat.lt_of_not_le hlast)

theorem closeUpvalues_brings (h : i.Typed Γ c slots) (last : Nat) : Brings i (IdealM.closeUpvalues last) fun _ i' =>
    ∃ opened, i' = { i with upvalues := i.upvalues.map (Captured.shut i.stack last), openUpvalues := opened } :=
  .get (closeFrom_brings h rfl)

theorem closeTop_sheds (h : i.Typed Γ c slots) : Brings i IdealM.closeTop fun _ i' =>
    i.Sheds (i.filledFrom .closeUpvalue i') i' := by
  unfold IdealM.closeTop
  refine Brings.calleeSlot.bind ?_
  rintro _ i₁ ⟨rfl, -, rfl⟩
  refine (closeUpvalues_brings h _).bind ?_
  rintro _ _ ⟨opened, rfl⟩
  refine (turns_drop _).imp fun _ i' ht => ?_
  have hfrom : i₁.filledFrom .closeUpvalue i' = i₁.stack.length - 1 := by
    unfold filledFrom
    rw [← length_calls, ← length_calls, ht.ends.1]
    exact (if_neg (Nat.lt_irrefl _)).trans ht.ends.2
  rw [hfrom]
  exact ⟨Nat.sub_le _ _, Nat.le_of_eq ht.ends.2.symm, ht.stack, ht.upvalues, ht.closures⟩

theorem leave_sheds {x : Slot} (h : i.Running Γ f rest p a ⟨⟨c', false⟩ :: x :: slots, none⟩ below) :
    Brings i IdealM.leave fun more i' => more = true → i.Sheds (i.filledFrom .return_ i') i' := by
  have hlength := h.length_stack
  rw [List.length_cons, List.length_cons] at hlength
  obtain ⟨v, hpop, -, -, hpopped⟩ := h.pop rfl
  unfold IdealM.leave
  refine .step (frame_eq h.frames) (.step hpop ((closeUpvalues_brings hpopped.typed f.base).bind ?_))
  rintro _ _ ⟨opened, rfl⟩
  refine .step rfl (.get ?_)
  split
  · refine (show Brings _ IdealM.pop fun _ _ => True from fun _ _ _ => trivial).bind fun _ _ _ => ?_
    exact .pure nofun
  · refine .get ?_
    split
    · exact .bind (M := fun _ _ => False) .stop fun _ _ => False.elim
    · refine .step rfl (.pure fun _ => ?_)
      have hbase : f.base < i.stack.dropLast.length := by rw [List.length_dropLast, hlength, h.base]; omega
      have htake : (i.stack.dropLast.take f.base).length = f.base := List.length_take_of_le (Nat.le_of_lt hbase)
      have hshut : i.upvalues.map (Captured.shut i.stack.dropLast f.base) = i.upvalues.map
          (Captured.shut i.stack f.base) := by
        refine List.map_congr_left fun v hv => ?_
        obtain ⟨u, hu⟩ := List.mem_iff_getElem?.mp hv
        cases v with
        | slot n =>
          obtain ⟨y, hy, -⟩ := hpopped.typed.held n u ((hpopped.typed.listed n u).mp hu)
          have hlt := (List.getElem?_eq_some_iff.mp hy).1
          rw [List.length_reverse, ← hpopped.typed.length_stack, List.length_dropLast] at hlt
          simp only [Captured.shut]
          rw [List.dropLast_eq_take, List.getElem?_take_of_lt hlt]
        | closed v => rfl
      have hfrom : i.filledFrom .return_ { i with
          stack := i.stack.dropLast.take f.base ++ [v]
          upvalues := i.upvalues.map (Captured.shut i.stack.dropLast f.base)
          openUpvalues := opened
          frames := i.frames.tail } = f.base := by
        unfold filledFrom
        rw [if_neg (by rw [List.length_tail]; omega)]
        show (i.stack.dropLast.take f.base ++ [v]).length - 1 = f.base
        rw [List.length_append, htake]
        rfl
      rw [hfrom]
      rw [List.length_dropLast] at hbase
      refine ⟨by omega, ?_, ?_, hshut, fun _ _ => Iff.rfl⟩
      · rw [List.length_append, htake]
        exact Nat.le_succ _
      · rw [List.take_append_of_le_length (Nat.le_of_eq htake.symm), List.take_take, Nat.min_self,
            List.dropLast_eq_take,
          List.take_take, Nat.min_eq_left (Nat.le_of_lt hbase)]

end Running

theorem filledFrom_moved (ip : Nat) : (i.moved ip).filledFrom op i' = i.filledFrom op i' := by
  unfold filledFrom
  rw [← length_calls, calls_moved, length_calls]

theorem Sheds.of_moved {ip : Nat} (h : (i.moved ip).Sheds low i') : i.Sheds low i' :=
  ⟨h.low_le, h.low_le', h.stack, h.upvalues, h.closures⟩

namespace Facing

variable (h : i.Facing Γ f rest p a s t below op operand)

include h

theorem execute (hstep : IdealM.step i = .ok true i') (hop : op ≠ .return_) :
    IdealM.execute op (i.moved (f.ip + 1)) = .ok () i' := by
  obtain ⟨hread, -⟩ := h.running.readByte h.ahead
  unfold IdealM.step at hstep
  rw [runBind, hread] at hstep
  dsimp only at hstep
  rw [Opcode.ofByte?_toByte] at hstep
  have hrun : (do IdealM.execute op; return true : IdealM Bool) (i.moved (f.ip + 1)) = .ok true i' := by
    cases op <;> first | exact hstep | exact absurd rfl hop
  rw [runBind] at hrun
  cases hexecute : IdealM.execute op (i.moved (f.ip + 1)) with
  | ok _ i'' =>
    rw [hexecute] at hrun
    cases hrun
    rfl
  | error e i'' =>
    rw [hexecute] at hrun
    cases hrun

theorem leave (hstep : IdealM.step i = .ok true i') (hop : op = .return_) :
    IdealM.leave (i.moved (f.ip + 1)) = .ok true i' := by
  subst hop
  obtain ⟨hread, -⟩ := h.running.readByte h.ahead
  unfold IdealM.step at hstep
  rw [runBind, hread] at hstep
  dsimp only at hstep
  rw [Opcode.ofByte?_toByte] at hstep
  exact hstep

theorem sheds (hstep : IdealM.step i = .ok true i') (hop : op ≠ .setLocal ∧ op ≠ .setUpvalue ∧ op ≠ .closure) :
    i.Sheds (i.filledFrom op i') i' := by
  obtain ⟨-, hrunning⟩ := (h.running.within h.within).readByte h.ahead
  obtain ⟨next, hgoes, -⟩ := h.goes
  rw [← filledFrom_moved (f.ip + 1)]
  refine (Sheds.of_moved : (i.moved (f.ip + 1)).Sheds _ i' → _) ?_
  by_cases hreturn : op = .return_
  · have hleave := h.leave hstep hreturn
    subst hreturn
    cases hgoes with
    | effect he =>
      cases he with
      | literal hop' | unary hop' | binary hop' => simp at hop'
    | return_ hs =>
      subst hs
      exact hrunning.leave_sheds _ _ hleave rfl
  · have hexecute := h.execute hstep hreturn
    by_cases hclose : op = .closeUpvalue
    · subst hclose
      exact Running.closeTop_sheds hrunning.typed _ _ hexecute
    · exact hrunning.execute_sheds hgoes h.fits h.ahead.tail ⟨hop.1, hop.2.1, hop.2.2, hclose, hreturn⟩ _ _ hexecute

end Facing

end Ideal

namespace IdealM.Brings

open Lox.Ideal

variable {i : Ideal} {f : Activation} {ip u : Nat} {v : Val}

theorem head_moved (hf : i.frames.head? = some f) : (i.moved ip).frames.head? = some { f with ip } := by
  obtain ⟨rest, hrest⟩ := List.head?_eq_some_iff.mp hf
  rw [frames_moved hrest]
  rfl

theorem setLocal : Brings i IdealM.setLocal fun _ i' => ∃ f r b v, i.frames.head? = some f ∧
    i.objects[f.closure]? = some (.closure r) ∧ r.prototype.code[f.ip]? = some b ∧ i.stack.reverse[0]? = some v ∧
    f.base + b.toNat < i.stack.length ∧ i' = { i.moved (f.ip + 1) with stack := i.stack.set (f.base + b.toNat) v } := by
  unfold IdealM.setLocal IdealM.readLocal
  refine (bind (M := fun n i' => ∃ f r b, i.frames.head? = some f ∧ i.objects[f.closure]? = some (.closure r) ∧
    r.prototype.code[f.ip]? = some b ∧ n = f.base + b.toNat ∧ i' = i.moved (f.ip + 1)) (readByte.bind ?_) ?_)
  · rintro b _ ⟨f, r, hf, hr, hb, rfl⟩
    refine frame.bind ?_
    rintro g _ ⟨rfl, hg⟩
    rw [head_moved hf] at hg
    cases hg
    exact pure ⟨f, r, b, hf, hr, hb, rfl, rfl⟩
  · rintro n _ ⟨f, r, b, hf, hr, hb, rfl, rfl⟩
    refine peek.bind ?_
    rintro v _ ⟨rfl, hv⟩
    refine writeSlot.imp ?_
    rintro _ i' ⟨hlt, rfl⟩
    exact ⟨f, r, b, v, hf, hr, hb, hv, hlt, rfl⟩

theorem readCaptured : Brings i IdealM.readCaptured fun u i' => ∃ f r b, i.frames.head? = some f ∧
    i.objects[f.closure]? = some (.closure r) ∧ r.prototype.code[f.ip]? = some b ∧
    r.captures[b.toNat]? = some (some u) ∧ i' = i.moved (f.ip + 1) := by
  refine readByte.bind ?_
  rintro b _ ⟨f, r, hf, hr, hb, rfl⟩
  refine frame.bind ?_
  rintro g _ ⟨rfl, hg⟩
  rw [head_moved hf] at hg
  cases hg
  refine closureAt.bind ?_
  rintro r' _ ⟨rfl, hr'⟩
  obtain rfl : r = r' := by
    have := hr.symm.trans hr'
    cases this
    rfl
  cases hc : r.captures[b.toNat]? with
  | none => exact bind (M := fun _ _ => False) stop fun _ _ => False.elim
  | some o =>
    refine step rfl (ofOption fun u ho => ?_)
    subst ho
    exact ⟨f, r, b, hf, hr, hb, hc, rfl⟩

theorem writeUpvalue : Brings i (IdealM.writeUpvalue u v) fun _ i' =>
    (∃ n, i.upvalues[u]? = some (.slot n) ∧ i' = { i with stack := i.stack.set n v }) ∨
      ∃ x, i.upvalues[u]? = some (.closed x) ∧ i' = { i with upvalues := i.upvalues.set u (.closed v) } := by
  refine get ?_
  cases hu : i.upvalues[u]? with
  | none => exact bind (M := fun _ _ => False) stop fun _ _ => False.elim
  | some x =>
    refine step rfl ?_
    cases x with
    | slot n =>
      refine writeSlot.imp ?_
      rintro _ i' ⟨-, rfl⟩
      exact .inl ⟨n, rfl, rfl⟩
    | closed x =>
      rintro _ _ ⟨⟩
      exact .inr ⟨x, rfl, rfl⟩

theorem setUpvalue : Brings i IdealM.setUpvalue fun _ i' => ∃ f r b u v, i.frames.head? = some f ∧
    i.objects[f.closure]? = some (.closure r) ∧ r.prototype.code[f.ip]? = some b ∧
    r.captures[b.toNat]? = some (some u) ∧ i.stack.reverse[0]? = some v ∧
    ((∃ n, i.upvalues[u]? = some (.slot n) ∧ i' = { i.moved (f.ip + 1) with stack := i.stack.set n v }) ∨
      ∃ x, i.upvalues[u]? = some (.closed x) ∧
        i' = { i.moved (f.ip + 1) with upvalues := i.upvalues.set u (.closed v) }) := by
  refine readCaptured.bind ?_
  rintro u _ ⟨f, r, b, hf, hr, hb, hc, rfl⟩
  refine peek.bind ?_
  rintro v _ ⟨rfl, hv⟩
  exact writeUpvalue.imp fun _ i' h => ⟨f, r, b, u, v, hf, hr, hb, hc, hv, h⟩

end IdealM.Brings

end Lox
