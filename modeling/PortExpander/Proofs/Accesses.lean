import Mathlib.Data.List.ReduceOption
import PortExpander.Proofs.Deafness
import PortExpander.Proofs.Dues
import PortExpander.Proofs.Failures

/-!
# The transactions of a pass

Which transactions a pass tries depends on its work, on the memory at its beginning and on what it finds on its line, and not on
how its transactions go: a failure makes it skip nothing, and what it reads it only keeps. So unless operations fall into it, all
its transactions can be told beforehand, one after the other.
-/

namespace PortExpander

open Sim Engine

/-! ## Transactions in histories -/

/-- The transaction that an event is, however it went. -/
def Event.access? : Event → Option Access
  | transaction a _ => some a
  | _ => none

/-- Whether an event is the note of the beginning of an operation that falls into something else. -/
def Event.isIntrusion : Event → Bool
  | noted (.opBegan _) _ => true
  | _ => false

namespace History

/-- The transactions that have been tried, the earliest first. -/
def accesses (h : History) : List Access := h.reverse.filterMap (·.access?)

/-- No operation has fallen into what has happened. -/
def Alone (h : History) : Prop := ∀ ev ∈ h, ev.isIntrusion = false

instance (h : History) : Decidable h.Alone := inferInstanceAs (Decidable (∀ ev ∈ h, ev.isIntrusion = false))

theorem accesses_append (new h : History) : (new ++ h).accesses = h.accesses ++ new.accesses := by
  unfold accesses
  rw [List.reverse_append, List.filterMap_append]

theorem accesses_eq_nil {h : History} (hn : ∀ ev ∈ h, ev.access? = none) : h.accesses = [] :=
  List.filterMap_eq_nil_iff.2 fun ev hm => hn ev (List.mem_reverse.1 hm)

theorem Alone.left {new h : History} (ha : Alone (new ++ h)) : new.Alone := fun ev hm => ha ev (List.mem_append_left _ hm)

theorem Alone.right {new h : History} (ha : Alone (new ++ h)) : h.Alone := fun ev hm => ha ev (List.mem_append_right _ hm)

end History

theorem State.accesses_noting (s : State) (n : Note) : (s.noting n).history.accesses = s.history.accesses :=
  (History.accesses_append [_] s.history).trans (List.append_nil _)

theorem State.accesses_seeing (s : State) {ev : Event} (hev : ev.access? = none) :
    (s.seeing ev).history.accesses = s.history.accesses := by
  have hnone : History.accesses [ev] = [] := History.accesses_eq_nil fun ev' hm => List.mem_singleton.1 hm ▸ hev
  exact (History.accesses_append [ev] s.history).trans (hnone ▸ List.append_nil _)

/-! ## Memories in a pass -/

/-- What two memories differ in is at most the inputs and the count of failures. -/
def Extender.Alike (e e' : Extender) : Prop :=
  ∃ backoff input, e' = { e with backoff, shadow := { e.shadow with input } }

theorem Extender.Alike.refl (e : Extender) : e.Alike e := ⟨_, _, rfl⟩

theorem Extender.Alike.trans {e e' e'' : Extender} (h : e.Alike e') (h' : e'.Alike e'') : e.Alike e'' := by
  obtain ⟨b, i, rfl⟩ := h
  obtain ⟨b', i', rfl⟩ := h'
  exact ⟨b', i', rfl⟩

namespace Extender

variable (e : Extender)

/-- The writes that a pass tries to registers of some groups; there is none where a register cannot be located. -/
def writesAt (k : Register) (groups : List Nat) : List (Option Access) :=
  match e.family.number? k with
  | some reg => groups.map fun g => (e.locate g reg).toOption.map (.write · (e.shadow.meant k g))
  | none => []

/-- The reads that a pass tries of the inputs of some groups; there is none where they cannot be located. -/
def readsAt (groups : List Nat) : List (Option Access) := groups.map fun g => (e.inputPlace g).map .read

@[simp] theorem writesAt_nil (k : Register) : e.writesAt k [] = [] := by
  unfold writesAt
  split <;> rfl

variable {e}

theorem writesAt_cons {k : Register} {reg : Byte} {g : Nat} {place : Place} {groups : List Nat}
    (hreg : e.family.number? k = some reg) (hp : e.locate g reg = .ok place) :
    e.writesAt k (g :: groups) = [some (.write place (e.shadow.meant k g))] ++ e.writesAt k groups := by
  unfold writesAt
  rw [hreg]
  dsimp only
  rw [List.map_cons, hp]
  rfl

theorem readsAt_cons {g : Nat} {place : Place} {groups : List Nat} (hp : e.locate g e.family.inputReg = .ok place) :
    e.readsAt (g :: groups) = [some (.read place)] ++ e.readsAt groups := by
  unfold readsAt inputPlace
  rw [List.map_cons, hp]
  rfl

/-- Memories that are alike ask for the same writes. -/
theorem Alike.writesAt {e' : Extender} (h : e.Alike e') (k : Register) (groups : List Nat) :
    e'.writesAt k groups = e.writesAt k groups := by
  obtain ⟨b, i, rfl⟩ := h
  cases k <;> rfl

/-- Memories that are alike ask for the same reads. -/
theorem Alike.readsAt {e' : Extender} (h : e.Alike e') (groups : List Nat) : e'.readsAt groups = e.readsAt groups := by
  obtain ⟨b, i, rfl⟩ := h
  rfl

variable (e)

/-- What a planned pass reads, in order. -/
def looks (plan : Plan) : List Place := (plan.groups &&& e.claims.groups).groups.filterMap e.inputPlace

/-- The transactions that a planned pass tries, in order. -/
def accesses (plan : Plan) : List Access := (e.dues plan).map (fun w => .write w.1 w.2) ++ (e.looks plan).map .read

end Extender

/-- Unless operations fall in between, one state leads to another by some transactions and without a note, and the memory comes to be
like `e`. -/
def Makes (s : State) (as : List (Option Access)) (e : Extender) (s' : State) : Prop :=
  ∃ new : History, s'.history = new ++ s.history ∧
    (new.Alone → new.accesses.map some = as ∧ (∀ ev ∈ new, ev.isNote = false) ∧ e.Alike s'.extender)

namespace Makes

variable {s s₁ s' : State} {as bs cs : List (Option Access)} {e e₁ e' : Extender}

/-- Events that are neither transactions nor notes. -/
theorem of_events (new : History) (hh : s'.history = new ++ s.history) (hn : ∀ ev ∈ new, ev.access? = none ∧ ev.isNote = false)
    (he : e.Alike s'.extender) : Makes s [] e s' :=
  ⟨new, hh, fun _ => ⟨by rw [History.accesses_eq_nil fun ev hm => (hn ev hm).1]; rfl, fun ev hm => (hn ev hm).2, he⟩⟩

theorem refl (s : State) : Makes s [] s.extender s := of_events [] rfl (by simp) (.refl _)

/-- What comes after a part of a pass may be told from a memory like the one that it has left. -/
theorem trans (h : Makes s as e₁ s₁) (h' : Makes s₁ cs e' s') (hsame : e₁.Alike s₁.extender → cs = bs ∧ e.Alike e') :
    Makes s (as ++ bs) e s' := by
  obtain ⟨new, hnew, hmakes⟩ := h
  obtain ⟨new', hnew', hmakes'⟩ := h'
  refine ⟨new' ++ new, by rw [hnew', hnew, List.append_assoc], fun ha => ?_⟩
  obtain ⟨has, hquiet, hlike⟩ := hmakes ha.right
  obtain ⟨hcs, hquiet', hlike'⟩ := hmakes' ha.left
  obtain ⟨rfl, hlast⟩ := hsame hlike
  rw [History.accesses_append, List.map_append, has, hcs]
  exact ⟨rfl, List.forall_mem_append.2 ⟨hquiet', hquiet⟩, hlast.trans hlike'⟩

end Makes

/-- A change of the memory that keeps it like what it is to be. -/
theorem Makes.amend {s s₁ : State} {as : List (Option Access)} {e e₁ : Extender} (h : Makes s as e s₁) (f : Extender → Extender)
    (hf : ∀ e', e.Alike e' → e₁.Alike (f e')) : Makes s as e₁ (s₁.amend f) := by
  obtain ⟨new, hnew, hmakes⟩ := h
  refine ⟨new, hnew, fun ha => ?_⟩
  obtain ⟨has, hquiet, hlike⟩ := hmakes ha
  exact ⟨has, hquiet, hf _ hlike⟩

/-! ## Phases of a pass -/

/-- Operations that fall into a pass begin with a note. -/
theorem Nested.makes {s s' : State} (h : Nested s s') : Makes s [] s.extender s' := by
  rcases h.announced with ⟨he, hh⟩ | ⟨o, later, hh⟩
  · exact .of_events [] hh (by simp) (he ▸ .refl _)
  · refine ⟨later ++ [.noted (.opBegan o) s.extender], by rw [hh, List.append_assoc]; rfl, fun ha => ?_⟩
    cases ha _ (List.mem_append_right _ List.mem_cons_self)

/-- A transaction is tried, whatever comes of it. -/
theorem Transfers.makes {s s' : State} {a : Access} {r : Except BusKind Byte} (h : Transfers s a r s') :
    Makes s [some a] s.extender s' := by
  obtain ⟨s₁, hn, rfl, rfl⟩ := h
  have hmade : Makes s₁ [some a] s₁.extender ((s₁.answered a).recorded a (s₁.board.outcome a)) := by
    cases s₁.board.outcome a with
    | ok => exact ⟨[.transaction a _], rfl, fun _ => ⟨rfl, by simp [Event.isNote], .refl _⟩⟩
    | error => exact ⟨[_, .transaction a _], rfl, fun _ => ⟨rfl, by simp [Event.isNote], _, _, rfl⟩⟩
  exact hn.makes.trans hmade fun hlike => ⟨rfl, hlike⟩

/-- A pass writes the registers of some groups one after the other, also after one that could not be written. -/
theorem Writes.makes {k : Register} {reg : Byte} {groups : List Nat} {s s' : State} {ok : Bool}
    (h : Writes reg (·.meant k ·) groups s ok s') (hreg : s.extender.family.number? k = some reg) :
    Makes s (s.extender.writesAt k groups) s.extender s' := by
  induction h with
  | nil =>
    rw [Extender.writesAt_nil]
    exact .refl _
  | @cons s s₁ s' group groups place r ok hp ht _ ih =>
    rw [Extender.writesAt_cons hreg hp]
    refine ht.makes.trans (ih ?_) fun hlike => ⟨hlike.writesAt k groups, hlike⟩
    rw [ht.steady.family]
    exact hreg

/-- Reading the inputs of some groups tries one read of each. -/
theorem Reads.makes {groups : List Nat} {s s' : State} {result : List Refresh × Bool} (h : Reads groups s result s') :
    Makes s (s.extender.readsAt groups) s.extender s' := by
  induction h with
  | nil => exact .refl _
  | @cons s s₁ s' group groups place r now refreshes ok hp ht _ _ ih =>
    rw [Extender.readsAt_cons hp]
    have hkept : Makes s [some (.read place)] s.extender (s₁.amend fun e => { e with shadow := e.shadow.setInput group now }) :=
      ht.makes.amend _ fun _ hlike => hlike.trans ⟨_, _, rfl⟩
    exact hkept.trans ih fun hlike => ⟨hlike.readsAt groups, hlike⟩

/-- Calling handlers makes no transactions. -/
theorem Turns.makes {turns : List (Nat × Bool × Bool)} {s s' : State} (h : Turns turns s s') : Makes s [] s.extender s' := by
  induction h with
  | nil => exact .refl _
  | skip _ _ ih => exact ih
  | @call s s₁ s' pin was now h turns _ _ hn _ ih =>
    have hcalled : Makes s [] s.extender ((s.seeing (.logged (.edge pin))).seeing (.called pin h)) :=
      .of_events [_, _] rfl (by simp [Event.access?, Event.isNote]) (.refl _)
    exact (hcalled.trans hn.makes fun hlike => ⟨rfl, hlike⟩).trans ih fun hlike => ⟨rfl, hlike⟩

/-- Writing the polarities tries one write of each group, if there is a register for them. -/
theorem Inverts.makes {groups : List Nat} {s s' : State} {ok : Bool} (h : Inverts groups s ok s') :
    Makes s (s.extender.writesAt .polarity groups) s.extender s' := by
  unfold Inverts at h
  split at h
  · exact Writes.makes h ‹_›
  · rename_i hreg
    have hnone : s.extender.writesAt .polarity groups = [] := by
      unfold Extender.writesAt
      rw [Family.number?, hreg]
    rw [h.2, hnone]
    exact .refl _

namespace Extender

variable (e : Extender)

/-- The memory after the configuration has been written. -/
def configured : Extender := { e with shadow := e.shadow.markDirty e.claims.groups }

/-- The memory after the outputs have been written. -/
def flushed : Extender := { e with shadow := e.shadow.clearDirty }

/-- The memory after inputs have been read, apart from what has been read. -/
def rearmed : Extender := { e with engine := e.engine.rearmed }

end Extender

/-- Writing the configuration tries the polarities of all claimed groups and then their directions. -/
theorem Configures.makes {s s' : State} {ok : Bool} (h : Configures s ok s') :
    Makes s (s.extender.writesAt .polarity s.extender.claims.groups.groups ++
      s.extender.writesAt .config s.extender.claims.groups.groups) s.extender.configured s' := by
  obtain ⟨s₁, s₂, inverted, directed, hi, hd, -, rfl⟩ := h
  obtain ⟨_, hmute⟩ := hi.mute
  have hdirected := Writes.makes (k := .config) hd (by rw [← hmute.steady.family]; rfl)
  refine (hi.makes.trans hdirected fun hlike => ⟨hlike.writesAt _ _, hlike⟩).amend _ ?_
  rintro _ ⟨b, i, rfl⟩
  exact ⟨b, i, rfl⟩

/-- Writing the outputs tries those of the dirty groups that are claimed. -/
theorem Flushes.makes {s s' : State} {ok : Bool} (h : Flushes s ok s') :
    Makes s (s.extender.writesAt .output (s.extender.shadow.dirty &&& s.extender.claims.groups).groups) s.extender.flushed s' :=
  Writes.makes (k := .output) h rfl

/-- Reading the inputs and calling the handlers tries one read of each claimed group among those to be read. -/
theorem Refreshes.makes {groups : Byte} {s s' : State} {ok : Bool} (h : Refreshes groups s ok s') :
    Makes s (s.extender.readsAt (groups &&& s.extender.claims.groups).groups) s.extender.rearmed s' := by
  obtain ⟨s₁, s₂, refreshes, hr, ht, rfl⟩ := h
  have hread : Makes s (_ ++ []) s.extender s₂ := hr.makes.trans ht.makes fun hlike => ⟨rfl, hlike⟩
  rw [List.append_nil] at hread
  refine hread.amend _ ?_
  rintro _ ⟨b, i, rfl⟩
  refine ⟨b, i, ?_⟩
  unfold Extender.rearmed
  cases s.extender.engine <;> rfl

/-- A phase that is made if the plan asks for it, after a part of a pass that has left a memory like `e`. -/
theorem Makes.asked {s s₁ s' : State} {as : List (Option Access)} {e : Extender} (h : Makes s as e s₁) {asked : Bool}
    {phase : State → Bool → State → Prop} {ok : Bool} (tries : Extender → List (Option Access)) (leaves : Extender → Extender)
    (hp : phase s₁ ok s' → Makes s₁ (tries s₁.extender) (leaves s₁.extender) s')
    (hsame : ∀ e', e.Alike e' → tries e' = tries e ∧ (leaves e).Alike (leaves e')) (ha : Asked asked phase s₁ ok s') :
    Makes s (as ++ if asked = true then tries e else []) (if asked = true then leaves e else e) s' := by
  unfold Asked at ha
  split at ha
  · rename_i hasked
    rw [if_pos hasked, if_pos hasked]
    exact h.trans (hp ha) (hsame _)
  · rename_i hasked
    rw [if_neg hasked, if_neg hasked, List.append_nil, ha.2]
    exact h

/-- What a pass that looks at its line, or empties its queue, comes to have in its memory. -/
theorem Gathers.makes {pending : Status} {plan : Plan} {s s' : State} (h : Gathers pending s plan s') :
    Makes s [] s'.extender s' ∧ s'.extender = { s.extender with engine := s'.extender.engine } := by
  cases h with
  | looked => exact ⟨.of_events [_] rfl (by simp [Event.access?, Event.isNote]) (.refl _), rfl⟩
  | unlooked => exact ⟨.refl _, rfl⟩
  | drained => exact ⟨.of_events [] rfl (by simp) (.refl _), rfl⟩

namespace Extender

variable (e : Extender)

/-- The memory at the end of a planned pass, apart from what it has read and from the count of failures. -/
def carried (plan : Plan) (engine : Engine) : Extender :=
  { e with shadow := { e.shadow with dirty := e.dirtyAfter plan }, engine := engine.reread plan.groups }

/-- The transactions that a planned pass tries, in order, each of them if it can be located. -/
def wanted (plan : Plan) : List (Option Access) :=
  [Register.polarity, .config, .output].flatMap (fun k => e.writesAt k (e.due plan k).groups) ++
    e.readsAt (plan.groups &&& e.claims.groups).groups

/-- What a planned pass wants, phase by phase. -/
theorem wanted_eq (plan : Plan) : e.wanted plan = e.writesAt .polarity (e.due plan .polarity).groups ++
    (e.writesAt .config (e.due plan .config).groups ++ (e.writesAt .output (e.due plan .output).groups ++
      e.readsAt (plan.groups &&& e.claims.groups).groups)) := by
  unfold wanted
  simp only [List.flatMap_cons, List.flatMap_nil, List.append_nil, List.append_assoc]

/-- What the phases of a planned pass try and leave behind, put together. -/
theorem wanted_of_phases (plan : Plan) (engine : Engine) :
    let e₁ : Extender := { e with engine }
    let e₂ := if plan.configure = true then e₁.configured else e₁
    let e₃ := if plan.write = true then e₂.flushed else e₂
    (([] ++ if plan.configure = true then e₁.writesAt .polarity e₁.claims.groups.groups ++
        e₁.writesAt .config e₁.claims.groups.groups else []) ++
      (if plan.write = true then e₂.writesAt .output (e₂.shadow.dirty &&& e₂.claims.groups).groups else [])) ++
      (if (plan.groups != 0) = true then e₃.readsAt (plan.groups &&& e₃.claims.groups).groups else []) = e.wanted plan ∧
    (if (plan.groups != 0) = true then e₃.rearmed else e₃) = e.carried plan engine := by
  obtain ⟨configure, write, groups⟩ := plan
  have hzero (k : Register) : e.writesAt k (Byte.groups 0) = [] := e.writesAt_nil k
  have hread : (if (groups != 0) = true then e.readsAt (groups &&& e.claims.groups).groups else []) =
      e.readsAt (groups &&& e.claims.groups).groups := by
    split
    · rfl
    · rename_i hz
      rw [Bool.not_eq_true, bne_eq_false_iff_eq] at hz
      rw [hz, BitVec.ofNat_eq_ofNat, BitVec.zero_and]
      rfl
  refine ⟨?_, ?_⟩
  · rw [wanted_eq, ← hread]
    unfold due
    cases configure <;> cases write <;>
      simp only [if_true, Bool.false_eq_true, if_false, hzero, List.nil_append, List.append_nil, List.append_assoc] <;> rfl
  · unfold carried dirtyAfter Engine.reread
    cases configure <;> cases write <;> dsimp only <;> split <;> rfl

end Extender

/-- Reading inputs leaves the queue of an engine as it is. -/
theorem Extender.queue_carried (e : Extender) (plan : Plan) (engine : Engine) :
    (e.carried plan engine).queue = { e with engine }.queue := by
  show { e with engine := engine.reread plan.groups }.queue = _
  unfold Engine.reread
  split
  · cases engine <;> rfl
  · rfl

/-- After its plan has been made, a pass tries what is planned. -/
theorem Carries.makes {pending : Status} {s s' : State} {clean : Bool} (h : Carries pending s clean s') :
    ∃ plan s₁, Gathers pending s plan s₁ ∧
      Makes s (s.extender.wanted plan) (s.extender.carried plan s₁.extender.engine) s' := by
  obtain ⟨plan, s₁, s₂, s₃, configured, written, read, hg, hc, hw, hr, -⟩ := h
  obtain ⟨hgather, he⟩ := hg.makes
  refine ⟨plan, s₁, hg, ?_⟩
  have hconf := hgather.asked (fun e => e.writesAt .polarity e.claims.groups.groups ++ e.writesAt .config e.claims.groups.groups)
    Extender.configured Configures.makes (fun e' hlike => ?_) hc
  have hflush := hconf.asked (fun e => e.writesAt .output (e.shadow.dirty &&& e.claims.groups).groups) Extender.flushed
    Flushes.makes (fun e' hlike => ?_) hw
  have hread := hflush.asked (fun e => e.readsAt (plan.groups &&& e.claims.groups).groups) Extender.rearmed
    Refreshes.makes (fun e' hlike => ?_) hr
  · have hphases := s.extender.wanted_of_phases plan s₁.extender.engine
    rw [← he] at hphases
    rw [hphases.1, hphases.2] at hread
    exact hread
  · obtain ⟨b, i, rfl⟩ := hlike
    exact ⟨rfl, b, i, rfl⟩
  · obtain ⟨b, i, rfl⟩ := hlike
    exact ⟨rfl, b, i, rfl⟩
  · obtain ⟨b, i, rfl⟩ := hlike
    exact ⟨rfl, b, i, rfl⟩

/-! ## The plan of a pass -/

/-- A line that is seen to fall makes a pass read all groups. -/
theorem Plan.ofRequests_fallen (pending : Status) (groups : Byte) :
    Plan.ofRequests (pending ∪ Status.readDirty) groups = .ofRequests pending 255 := by
  have hconfig : (pending ∪ Status.readDirty).contains Status.configDirty = pending.contains Status.configDirty :=
    FlagSet.contains_union_other _ (by decide) (by decide)
  have hwrite : (pending ∪ Status.readDirty).contains Status.writeDirty = pending.contains Status.writeDirty :=
    FlagSet.contains_union_other _ (by decide) (by decide)
  have hgroups := Plan.groups_of_fallen pending groups
  unfold Plan.ofRequests at hgroups ⊢
  dsimp only at hgroups
  rw [hgroups, hconfig, hwrite, ite_self]

/-- The groups that a pass reads even if it is not asked for all inputs: all of them, if the generic engine finds its line low and
has not gone deaf to it; the chips that have interrupted or are polled, if the engine is the queued one. -/
def Extender.sweep (e : Extender) (low deaf : Bool) : Byte :=
  match e.engine with
  | .generic _ => if low && !deaf then 255 else 0
  | .queued q => q.queue.foldl (fun mask chip => mask ||| BitVec.twoPow 8 chip) q.polled

/-- There is one way to make the plan of a pass. -/
theorem Gathers.unique {pending : Status} {plan plan' : Plan} {s s₁ s₁' : State} (h : Gathers pending s plan s₁)
    (h' : Gathers pending s plan' s₁') : plan = plan' ∧ s₁ = s₁' := by
  cases h with
  | @looked m now he hisr hl hnow =>
    cases h' with
    | @looked m' now' he' _ _ hnow' =>
      cases he.symm.trans he'
      cases hnow.trans hnow'.symm
      exact ⟨rfl, rfl⟩
    | unlooked he' hno =>
      rw [hisr, hl] at hno
      cases hno
    | drained he' => cases he.symm.trans he'
  | @unlooked m he hno =>
    cases h' with
    | looked he' hisr hl =>
      rw [hisr, hl] at hno
      cases hno
    | unlooked => exact ⟨rfl, rfl⟩
    | drained he' => cases he.symm.trans he'
  | @drained q he =>
    cases h' with
    | looked he' | unlooked he' => cases he.symm.trans he'
    | drained he' =>
      cases he.symm.trans he'
      exact ⟨rfl, rfl⟩

/-- The plan of a pass can be told from its work, the memory at its beginning and what it finds on its line. -/
theorem Gathers.plan_eq {pending : Status} {plan : Plan} {s s' : State} {looked : History} (h : Gathers pending s plan s')
    (hh : s'.history = looked ++ s.history) {deaf : Bool}
    (hd : s.extender.lines.has 0 = true → (s.extender.Listens ↔ deaf = false)) :
    plan = .ofRequests pending (s.extender.sweep (looked.found .low) deaf) := by
  unfold Extender.sweep
  cases h with
  | @looked m now he hisr hl hnow =>
    obtain rfl : looked = [.sampled 0 (s.board.lines 0)] := State.new_unique hh rfl
    have hfound : History.found [.sampled 0 (s.board.lines 0)] .low = (s.board.lines 0 == .low) := Bool.or_false _
    have hhigh : m.high = !deaf := by
      rw [Bool.eq_iff_iff, Bool.not_eq_true', ← hd hl]
      exact ⟨fun h m' he' => by cases he.symm.trans he'; exact h, fun h => h m he⟩
    have hfell : (m.high && !now) = (s.board.lines 0 == .low && !deaf) := by
      rw [hnow, hhigh]
      cases s.board.lines 0 <;> cases deaf <;> rfl
    rw [he, hfound, hfell]
    dsimp only
    split
    · exact Plan.ofRequests_fallen pending 0
    · rfl
  | unlooked he =>
    obtain rfl : looked = [] := State.new_unique hh rfl
    rw [he]
    rfl
  | drained he => rw [he]

/-- The plan of a pass. It writes the configuration if that is asked for, outputs if they or the configuration are, and reads all inputs
if they or the configuration are asked for. -/
def PassRecord.plan (p : PassRecord) : Plan where
  configure := p.pending.contains Status.configDirty
  write := p.pending.contains Status.configDirty || p.pending.contains Status.writeDirty
  groups :=
    if p.pending.contains Status.configDirty || p.pending.contains Status.readDirty then 255
    else p.before.sweep (p.body.found .low) p.past.deaf

namespace Extender

variable {e : Extender} {plan : Plan}

/-- The writes to a register that can be located are the rows of the register. -/
theorem reduceOption_writesAt (k : Register) (groups : Byte) :
    (e.writesAt k groups.groups).reduceOption = (e.rows k groups).map fun w => .write w.1 w.2 := by
  unfold writesAt rows row
  cases e.family.number? k with
  | none => rfl
  | some reg =>
    dsimp only
    rw [List.reduceOption, List.filterMap_map, List.map_filterMap]
    refine List.filterMap_congr fun g _ => ?_
    show (e.locate g reg).toOption.map _ = ((e.locate g reg).toOption.map _).map _
    rw [Option.map_map]
    rfl

/-- The reads that can be located are at the places of the inputs. -/
theorem reduceOption_readsAt (groups : List Nat) :
    (e.readsAt groups).reduceOption = (groups.filterMap e.inputPlace).map .read := by
  unfold readsAt
  rw [List.reduceOption, List.filterMap_map, List.map_filterMap]
  rfl

/-- Where everything that is planned can be located, the transactions of a planned pass are those that are due and the reads. -/
theorem accesses_of_wanted {as : List Access} (h : as.map some = e.wanted plan) :
    as = e.accesses plan ∧
    (∀ k g reg, (e.due plan k).getLsbD g = true → e.family.number? k = some reg → ∃ place, e.locate g reg = .ok place) ∧
    ∀ g, (plan.groups &&& e.claims.groups).getLsbD g = true → ∃ place, e.locate g e.family.inputReg = .ok place := by
  have hsome (o : Option Access) (ho : o ∈ e.wanted plan) : o.isSome = true := by
    rw [← h] at ho
    obtain ⟨a, -, rfl⟩ := List.mem_map.1 ho
    rfl
  have hlocated {x : Except Fault Place} {f : Place → Access} (hx : (x.toOption.map f).isSome = true) : ∃ place, x = .ok place := by
    cases x with
    | ok place => exact ⟨place, rfl⟩
    | error => cases hx
  refine ⟨?_, fun k g reg hg hreg => hlocated (f := (.write · (e.shadow.meant k g))) (hsome _ ?_), fun g hg =>
    hlocated (f := .read) (hsome _ ?_)⟩
  · calc as = (as.map some).reduceOption := by
          rw [List.reduceOption, List.filterMap_map]
          exact List.filterMap_some.symm
      _ = (e.wanted plan).reduceOption := by rw [h]
      _ = e.accesses plan := by
        rw [wanted_eq]
        simp only [List.reduceOption_append, reduceOption_writesAt]
        unfold accesses
        rw [dues_eq, List.map_append, List.map_append, List.append_assoc, List.append_assoc, reduceOption_readsAt]
        rfl
  · refine List.mem_append_left _ (List.mem_flatMap.2 ⟨k, by cases k <;> decide, ?_⟩)
    unfold writesAt
    rw [hreg]
    exact List.mem_map.2 ⟨g, Byte.mem_groups.2 hg, rfl⟩
  · exact List.mem_append_right _ (List.mem_map.2 ⟨g, Byte.mem_groups.2 hg, rfl⟩)

end Extender

/-! ## Recorded passes -/

/-- Memories that are alike plan the same transactions. -/
theorem Extender.Alike.accesses {e e' : Extender} (h : e.Alike e') (plan : Plan) : e'.accesses plan = e.accesses plan := by
  obtain ⟨b, i, rfl⟩ := h
  rfl

/-- Memories that are alike sweep the same groups. -/
theorem Extender.Alike.sweep {e e' : Extender} (h : e.Alike e') (low deaf : Bool) : e'.sweep low deaf = e.sweep low deaf := by
  obtain ⟨b, i, rfl⟩ := h
  rfl

namespace PassRecord.Stems

variable {p : PassRecord} {s t t' : State}

/-- A pass ends with the note that a transaction of it has failed just when one has. -/
theorem failed (h : p.Stems s t t') : p.body.any (·.failed) = !p.clean := by
  obtain ⟨ending, done, hbody, hdone, hend⟩ := h.body
  obtain ⟨new, hnew, -, hfailed⟩ := h.carries.reckons.told
  obtain rfl : done = new := State.new_unique hdone hnew
  have hnone : ending.any (·.failed) = false := by
    refine List.any_eq_false.2 fun ev hm => ?_
    obtain ⟨bits, rfl⟩ := hend ev hm
    exact Bool.false_ne_true
  rw [hbody, List.any_append, hnone, hfailed, Bool.false_or]

/-- The plan that a pass makes is the one that can be told. -/
theorem plan_eq (h : p.Stems s t t') (hs : s.Heard) {plan : Plan} {s₁ : State} (hg : Gathers p.pending t plan s₁) :
    plan = p.plan := by
  obtain ⟨plan', s₁', looked, hg', hlooked, hlooks, -⟩ := h.gathers
  obtain ⟨rfl, rfl⟩ := hg.unique hg'
  have hplan := hg.plan_eq hlooked (h.heard hs)
  have hfound : looked.found .low = p.body.found .low := by
    unfold History.found
    rw [hlooks]
  rw [hplan, hfound, h.extender]
  rfl

/-- A pass into which no operation falls tries what is planned, and leaves the memory as planned, but for what it has read and for the
count of failures. -/
theorem makes (h : p.Stems s t t') (hs : s.Heard) (ha : p.body.Alone) : p.body.accesses.map some = p.before.wanted p.plan ∧
    (∃ engine, (p.before.carried p.plan engine).Alike t'.extender) ∧ t'.extender.queue = [] := by
  obtain ⟨plan, s₁, hg, new, hnew, hmakes⟩ := h.carries.makes
  obtain rfl := h.plan_eq hs hg
  obtain ⟨ending, done, hbody, hdone, hend⟩ := h.body
  obtain rfl : done = new := State.new_unique hdone hnew
  have hnone : History.accesses ending = [] := History.accesses_eq_nil fun ev hm => by
    obtain ⟨bits, rfl⟩ := hend ev hm
    rfl
  rw [hbody] at ha
  obtain ⟨haccesses, -, hlike⟩ := hmakes ha.right
  rw [h.extender] at haccesses hlike
  refine ⟨?_, ⟨_, hlike⟩, ?_⟩
  · rw [hbody, History.accesses_append, hnone, List.append_nil, haccesses]
  · have hqueue := Extender.queue_carried p.before p.plan s₁.extender.engine
    obtain ⟨b, i, he⟩ := hlike
    rw [he]
    exact hqueue.trans hg.queue

end PassRecord.Stems

/-- Each input is read once by a planned pass. -/
theorem Extender.nodup_looks (e : Extender) (plan : Plan) : (e.looks plan).Nodup := by
  have hgroups : (plan.groups &&& e.claims.groups).groups.Nodup := List.nodup_range.filter _
  unfold looks List.Nodup
  rw [List.pairwise_filterMap]
  refine hgroups.imp_of_mem fun {g g'} hg hg' hne => ?_
  rintro place hp _ hp' rfl
  have hlt {g : Nat} (h : g ∈ (plan.groups &&& e.claims.groups).groups) : g < 8 := Byte.lt_of_mem_groups h
  exact hne (Family.locate_inj (hlt hg) (hlt hg') (locate_of_inputPlace hp) (locate_of_inputPlace hp'))

/-- No register is accessed twice by a planned pass, if no two registers share a place. -/
theorem Extender.nodup_accesses {e : Extender} (hf : e.family.Spaced) (hi : e.family.Separate) (plan : Plan) :
    ((e.accesses plan).map (·.place)).Nodup := by
  have hplaces : (e.accesses plan).map (·.place) = (e.dues plan).map Prod.fst ++ e.looks plan := by
    unfold accesses
    rw [List.map_append, List.map_map, List.map_map]
    exact congrArg _ (List.map_id _)
  rw [hplaces]
  refine List.Nodup.append (Family.Spaced.apart hf).nodup_dues (e.nodup_looks plan) fun place hw hr => ?_
  obtain ⟨⟨_, value⟩, hmem, rfl⟩ := List.mem_map.1 hw
  obtain ⟨k, g, hdue, -⟩ := mem_dues.1 hmem
  obtain ⟨g', hg', hp'⟩ := List.mem_filterMap.1 hr
  exact hi.not_due (BitVec.lt_of_getLsbD (Byte.mem_groups.1 hg')) (locate_of_inputPlace hp') hdue

/-- What a pass does can be told before it is made, whatever fails in it. A pass of a session has the work that it has taken out of the
status word and what the engine asks for in every pass. If no operation falls into it, it tries the transactions of its plan, each of
which can be located: the writes of the polarities, directions and outputs that are due, with what the memory means the registers to
hold, and then the reads of the claimed groups that are planned, each register and each input once and in the order of the groups. It
ends clean just when none of them fails. If it does, the word is left with `busy` and the dirty groups as planned; if it does not,
everything is asked for again. So two passes with the same work, memories that differ at most in the inputs and the count of failures,
and the same found on the line, try the same transactions. Only a line that is found low makes no pass read that comes after a deaf
history. -/
theorem passes_can_be_told {s : State} (hs : Reachable s) {p : PassRecord} (hp : s.history.Records p) (ha : p.body.Alone) :
    (∃ bits, p.past.took? = some bits ∧ p.pending = bits ∪ p.before.standing) ∧
    p.body.accesses = p.before.accesses p.plan ∧
    (∀ k g reg, (p.before.due p.plan k).getLsbD g = true → p.before.family.number? k = some reg →
      ∃ place, p.before.locate g reg = .ok place) ∧
    (∀ g, (p.plan.groups &&& p.before.claims.groups).getLsbD g = true →
      ∃ place, p.before.locate g p.before.family.inputReg = .ok place) ∧
    (∀ k, ((p.before.rows k (p.before.due p.plan k)).map Prod.fst).Nodup) ∧ (p.before.looks p.plan).Nodup ∧
    (p.before.family.Spaced → p.before.family.Separate → (p.body.accesses.map (·.place)).Nodup) ∧
    (p.body.any (·.failed) = !p.clean) ∧ p.after.queue = [] ∧
    (p.clean = true → p.after.status = .busy ∧ p.after.backoff.count = 0 ∧
      p.after.shadow = { p.before.shadow with dirty := p.before.dirtyAfter p.plan, input := p.after.shadow.input }) ∧
    (p.clean = false → p.after.status = Status.busy ∪ .resync ∧
      p.after.shadow = { p.before.shadow with dirty := 255, input := p.after.shadow.input }) ∧
    ∀ s' p', Reachable s' → s'.history.Records p' → p'.body.Alone → p.before.Alike p'.before → p'.pending = p.pending →
      p'.body.found .low = p.body.found .low → p'.past.deaf = p.past.deaf → p'.body.accesses = p.body.accesses := by
  -- also for the second pass, which may be one of another session
  have htold {s : State} (hs : Reachable s) {p : PassRecord} (hp : s.history.Records p) (ha : p.body.Alone) :
      p.body.accesses.map some = p.before.wanted p.plan := by
    obtain ⟨e₀, board, hmade, hgo, -⟩ := hs.goes
    obtain ⟨s₁, t, t', hgo₁, hst⟩ := hgo.exists_stems rfl hp
    exact (hst.makes (hgo₁.heard hmade rfl) ha).1
  obtain ⟨e₀, board, hmade, hgo, -⟩ := hs.goes
  obtain ⟨s₁, t, t', hgo₁, hst⟩ := hgo.exists_stems rfl hp
  obtain ⟨hmade, ⟨engine, b, i, he⟩, hqueue⟩ := hst.makes (hgo₁.heard hmade rfl) ha
  obtain ⟨haccesses, hwrites, hreads⟩ := Extender.accesses_of_wanted hmade
  have hstatus : p.before.status = .busy := by rw [hst.before]; rfl
  refine ⟨⟨_, hst.toBegins.took, ?_⟩, haccesses, hwrites, hreads, fun k => Extender.nodup_rows _, Extender.nodup_looks _ _,
    fun hf hi => haccesses ▸ Extender.nodup_accesses hf hi _, hst.failed, ?_, fun hc => ?_, fun hc => ?_,
    fun s' p' hs' hp' ha' hlike hpending hfound hdeaf => ?_⟩
  · rw [hst.pending, hst.before]
    rfl
  · rw [hst.after]
    cases p.clean <;> exact hqueue
  · rw [hst.after, hc]
    refine ⟨?_, rfl, ?_⟩
    · show t'.extender.status = .busy
      rw [he]
      exact hstatus
    · show t'.extender.shadow =
        { p.before.shadow with dirty := p.before.dirtyAfter p.plan, input := t'.extender.shadow.input }
      rw [he]
      rfl
  · rw [hst.after, hc]
    refine ⟨?_, ?_⟩
    · show t'.extender.status ∪ .resync = _
      rw [he]
      exact congrArg (· ∪ Status.resync) hstatus
    · show t'.extender.shadow.markAllDirty = { p.before.shadow with dirty := 255, input := t'.extender.shadow.input }
      rw [he]
      rfl
  · have haccesses' := (Extender.accesses_of_wanted (htold hs' hp' ha')).1
    rw [haccesses', haccesses, hlike.accesses]
    unfold PassRecord.plan
    rw [hpending, hfound, hdeaf, hlike.sweep]

/-- A write fails, and the pass goes on as planned; after the next one has made up for it, the line is found low, and the pass reads
the inputs and nothing else. -/
theorem passes_can_be_told_of_a_failure :
    let s := State.oneLine [.claim 0, .op (.call (.setup 0 PinAttributes.input)), .op (.change (.failNext [some .bus])),
      .op .update, .op .update, .op (.change (.line 0 .low)), .op (.call (.interrupt 0)), .op .update]
    (∃ p, s.history.Records p ∧ p.clean = false ∧ p.body.accesses =
        [.write ⟨0x20, 2⟩ 0, .write ⟨0x20, 3⟩ 1, .write ⟨0x20, 1⟩ 0, .read ⟨0x20, 0⟩] ∧
      p.after.status = Status.busy ∪ .resync) ∧
    ∃ p, s.history.Records p ∧ p.clean = true ∧ p.body.accesses = [.read ⟨0x20, 0⟩] ∧ p.after.status = .busy := by
  intro s
  have hr : Reachable s := reachable_oneLine _
  constructor
  · obtain ⟨p, hp, hq⟩ := (Option.any_eq_true _ _).1
      (by decide +kernel : ((s.history.pass? 28).any fun p => decide p.body.Alone && !p.clean && p.before.accesses p.plan ==
        [.write ⟨0x20, 2⟩ 0, .write ⟨0x20, 3⟩ 1, .write ⟨0x20, 1⟩ 0, .read ⟨0x20, 0⟩]) = true)
    simp only [Bool.and_eq_true, decide_eq_true_eq, Bool.not_eq_true', beq_iff_eq] at hq
    obtain ⟨⟨halone, hclean⟩, hplan⟩ := hq
    have hp := History.records_of_pass? hp
    obtain ⟨-, haccesses, -, -, -, -, -, -, -, -, hfailed, -⟩ := passes_can_be_told hr hp halone
    exact ⟨p, hp, hclean, haccesses.trans hplan, (hfailed hclean).1⟩
  · obtain ⟨p, hp, hq⟩ := (Option.any_eq_true _ _).1
      (by decide +kernel : ((s.history.pass? 2).any fun p => decide p.body.Alone && p.clean && p.before.accesses p.plan ==
        [.read ⟨0x20, 0⟩]) = true)
    simp only [Bool.and_eq_true, decide_eq_true_eq, beq_iff_eq] at hq
    obtain ⟨⟨halone, hclean⟩, hplan⟩ := hq
    have hp := History.records_of_pass? hp
    obtain ⟨-, haccesses, -, -, -, -, -, -, -, hkept, -⟩ := passes_can_be_told hr hp halone
    exact ⟨p, hp, hclean, haccesses.trans hplan, (hkept hclean).1⟩

/-- A handler cuts a pass short that has found the line low. The line rises and falls again, and the next pass is made because of it
and finds it low, but tries no transaction, although there is a claimed pin. -/
theorem low_lines_are_passed_over_after_a_cut :
    let s := State.oneLine [.claim 0, .op (.call (.setup 0 PinAttributes.input)), .op (.call (.attach 0 ⟨0, 7, .change⟩)),
      .op .update, .op (.handler 7 [.panic]), .op (.change (.poke ⟨0x20, 0⟩ 1)), .op (.change (.line 0 .low)),
      .op (.call (.interrupt 0)), .op .update, .op (.handler 7 []), .op (.change (.line 0 .high)),
      .op (.change (.poke ⟨0x20, 0⟩ 0)), .op (.change (.line 0 .low)), .op (.call (.interrupt 0)), .op .update]
    ∃ p, s.history.Records p ∧ p.body.Alone ∧ p.past.took? = some .isrPending ∧ p.body.found .low = true ∧
      p.before.claims.groups.getLsbD 0 = true ∧ p.body.accesses = [] := by
  intro s
  obtain ⟨p, hp, hq⟩ := (Option.any_eq_true _ _).1
    (by decide +kernel : ((s.history.pass? 2).any fun p => decide p.body.Alone && p.past.took? == some .isrPending &&
      p.body.found .low && p.before.claims.groups.getLsbD 0 && p.body.accesses == []) = true)
  simp only [Bool.and_eq_true, decide_eq_true_eq, beq_iff_eq] at hq
  obtain ⟨⟨⟨⟨halone, htook⟩, hlow⟩, hg⟩, hnone⟩ := hq
  exact ⟨p, History.records_of_pass? hp, halone, htook, hlow, hg, hnone⟩

end PortExpander
