import Mathlib.Data.List.Induction
import PortExpander.Registry

/-!
# Drivers by name

What a registry holds is told by the registrations that were asked of it, whether they were carried out or not: the names are the first
eight that differ, and each goes with the constructor that was registered last under it. `Recalls` says so; a registration keeps it,
whether it replaces a driver, adds one or is refused, since a name that is refused once is never among the first eight.
-/

namespace PortExpander

namespace Registry

variable {r : Registry} {name name' other : String} {constructor : Constructor} {history : List (String × Constructor)}

/-! ## Names -/

/-- Names are the same if they are when case is folded. -/
theorem sameName_iff : sameName name other = true ↔ foldCase name = foldCase other := by
  rw [sameName, beq_iff_eq]

theorem sameName_comm (name other : String) : sameName name other = sameName other name := by
  rw [Bool.eq_iff_iff, sameName_iff, sameName_iff, eq_comm]

/-- Names that are the same are the same as the same names. -/
theorem sameName_congr (h : sameName name name' = true) (other : String) : sameName name other = sameName name' other := by
  rw [sameName, sameName, sameName_iff.1 h]

/-- A name of the registry is the same as this one. -/
def Knows (r : Registry) (name : String) : Prop := ∃ stored ∈ r.names, sameName stored name = true

theorem knows_congr (h : sameName name name' = true) : r.Knows name ↔ r.Knows name' := by
  unfold Knows
  simp only [sameName_comm _ name, sameName_comm _ name', sameName_congr h]

/-- The names that are not the same as one before them. -/
def firsts (names : List String) : List String := names.eraseDupsBy sameName

/-- The loop that collects the first names keeps one more name if it is the same as none of those that it kept. -/
theorem loop_concat (names seen : List String) (name : String) :
    List.eraseDupsBy.loop sameName (names ++ [name]) seen =
      if ∃ first ∈ List.eraseDupsBy.loop sameName names seen, sameName first name = true
      then List.eraseDupsBy.loop sameName names seen else List.eraseDupsBy.loop sameName names seen ++ [name] := by
  induction names generalizing seen with
  | nil =>
    simp only [List.nil_append, List.eraseDupsBy.loop, List.mem_reverse, sameName_comm _ name, ← List.any_eq_true]
    cases seen.any (sameName name) <;> simp
  | cons n names ih =>
    simp only [List.cons_append, List.eraseDupsBy.loop]
    by_cases h : seen.any (sameName n) = true
    · simp only [h]
      exact ih seen
    · simp only [h]
      exact ih (n :: seen)

/-- One more name is a first one if none of those before it is the same. -/
theorem firsts_concat (names : List String) (name : String) : firsts (names ++ [name]) =
    if ∃ first ∈ firsts names, sameName first name = true then firsts names else firsts names ++ [name] :=
  loop_concat names [] name

/-- No two first names are the same. -/
theorem pairwise_firsts (names : List String) : (firsts names).Pairwise fun a b => ¬sameName a b = true := by
  induction names using List.reverseRecOn with
  | nil => exact .nil
  | append_singleton names name ih =>
    rw [firsts_concat]
    by_cases h : ∃ first ∈ firsts names, sameName first name = true
    · rwa [if_pos h]
    · rw [if_neg h, List.pairwise_append]
      refine ⟨ih, List.pairwise_singleton _ _, fun a ha b hb hab => h ⟨a, ha, ?_⟩⟩
      rwa [← List.mem_singleton.1 hb]

/-! ## Registrations -/

/-- A constructor is found for the names that are known. -/
theorem isSome_find?_iff : (r.find? name).isSome = true ↔ r.Knows name := by
  rw [find?, Option.isSome_map, List.find?_isSome, Knows, names]
  simp

/-- What is not found is not known. -/
theorem find?_eq_none_iff : r.find? name = none ↔ ¬r.Knows name := by
  rw [← isSome_find?_iff, Bool.not_eq_true, Option.isSome_eq_false_iff, Option.isNone_iff_eq_none]

/-- A driver that is replaced keeps its name. -/
theorem map_fst_replace (name : String) (constructor : Constructor) (drivers : List (String × Constructor)) :
    (replace name constructor drivers).map (·.1) = drivers.map (·.1) := by
  induction drivers with
  | nil => rfl
  | cons d drivers ih =>
    rw [replace]
    by_cases h : sameName d.1 name = true
    · rw [if_pos h, List.map_cons, List.map_cons]
    · rw [if_neg h, List.map_cons, List.map_cons, ih]

/-- A constructor that replaces another is found under the names that are the same, and no other is found in another place. -/
theorem find?_replace {drivers : List (String × Constructor)} (h : Knows ⟨drivers⟩ name) (other : String) :
    find? ⟨replace name constructor drivers⟩ other = if sameName name other = true then some constructor else find? ⟨drivers⟩ other := by
  unfold find?
  induction drivers with
  | nil =>
    obtain ⟨_, hstored, -⟩ := h
    cases hstored
  | cons d drivers ih =>
    rw [replace]
    by_cases hd : sameName d.1 name = true
    · rw [if_pos hd, List.find?_cons, List.find?_cons, sameName_congr hd]
      cases sameName name other <;> rfl
    · have hrest : Knows ⟨drivers⟩ name := by
        obtain ⟨stored, hstored, hsame⟩ := h
        rcases List.mem_cons.1 hstored with rfl | hstored
        · exact absurd hsame hd
        · exact ⟨stored, hstored, hsame⟩
      rw [if_neg hd, List.find?_cons, List.find?_cons]
      cases hother : sameName d.1 other with
      | false => exact ih hrest
      | true =>
        have hne : ¬sameName name other = true := by
          rwa [sameName_comm, ← sameName_congr hother]
        rw [if_neg hne]

/-- A registration is carried out if the name is known or there is room. A name that is not known is added behind the others. Names that
are the same then go with the constructor, and every other name goes with the one that it went with. -/
theorem register_of_room (h : r.Knows name ∨ r.names.length < maxDrivers) (constructor : Constructor) :
    ∃ r', r.register name constructor = .ok r' ∧ (r.Knows name → r'.names = r.names) ∧ (¬r.Knows name → r'.names = r.names ++ [name]) ∧
      ∀ other, r'.find? other = if sameName name other = true then some constructor else r.find? other := by
  by_cases hknows : r.Knows name
  · refine ⟨_, if_pos (isSome_find?_iff.2 hknows), fun _ => map_fst_replace _ _ _, absurd hknows, ?_⟩
    exact find?_replace hknows
  · have hroom : r.drivers.length < maxDrivers := by
      rw [← List.length_map (·.1)]
      exact h.resolve_left hknows
    refine ⟨⟨r.drivers ++ [(name, constructor)]⟩, ?_, fun h => absurd h hknows, fun _ => List.map_append, fun other => ?_⟩
    · rw [register, if_neg (mt isSome_find?_iff.1 hknows), if_pos hroom]
    · rw [find?, List.find?_append, Option.map_or, ← find?]
      by_cases hsame : sameName name other = true
      · have hnone := find?_eq_none_iff.2 (mt (knows_congr hsame).2 hknows)
        simp [hsame, hnone]
      · simp [hsame]

/-- A registration is refused if the name is not known and there is no room. -/
theorem register_of_full (h : ¬(r.Knows name ∨ r.names.length < maxDrivers)) (constructor : Constructor) :
    r.register name constructor = .error .registryFull := by
  obtain ⟨hknows, hroom⟩ := not_or.1 h
  rw [names, List.length_map] at hroom
  rw [register, if_neg (mt isSome_find?_iff.1 hknows), if_neg hroom]

/-! ## What was asked of a registry -/

/-- The registration that a command asks for. -/
def Command.registration? : Command → Option (String × Constructor)
  | .register name constructor => some (name, constructor)
  | _ => none

/-- The registry after commands. -/
def after (r : Registry) : List Command → Registry
  | [] => r
  | c :: cs => after (r.perform c).2.2 cs

/-- What a command answers and logs after others is what it does to the registry after them. -/
theorem performAll_concat (r : Registry) (commands : List Command) (c : Command) :
    r.performAll (commands ++ [c]) = r.performAll commands ++ [(((r.after commands).perform c).1, ((r.after commands).perform c).2.1)] := by
  induction commands generalizing r with
  | nil => rfl
  | cons first commands ih => exact congrArg _ (ih _)

/-- The constructor that was registered last under a name, or under one that is the same. -/
def latest (history : List (String × Constructor)) (name : String) : Option Constructor :=
  (history.reverse.find? fun d => sameName d.1 name).map (·.2)

theorem latest_concat (history : List (String × Constructor)) (name : String) (constructor : Constructor) (other : String) :
    latest (history ++ [(name, constructor)]) other = if sameName name other = true then some constructor else latest history other := by
  rw [latest, List.reverse_append, List.reverse_singleton, List.singleton_append, List.find?_cons]
  cases sameName name other <;> rfl

/-- The registry holds what the registrations asked of it tell: the first names that differ, as far as there is room for them, and with
each the constructor that was registered last. -/
structure Recalls (r : Registry) (history : List (String × Constructor)) : Prop where
  names : r.names = (firsts (history.map (·.1))).take maxDrivers
  find? : ∀ name, r.Knows name → r.find? name = latest history name

namespace Recalls

/-- The empty registry recalls that nothing was registered. -/
theorem empty : Registry.empty.Recalls [] where
  names := rfl
  find? _ h := by
    obtain ⟨_, hstored, -⟩ := h
    cases hstored

/-- No two names of a registry are the same. -/
theorem pairwise (h : r.Recalls history) : r.names.Pairwise fun a b => ¬sameName a b = true := by
  rw [h.names]
  exact (pairwise_firsts _).sublist (List.take_sublist _ _)

/-- A registry has no more names than there is room for. -/
theorem length_le (h : r.Recalls history) : r.names.length ≤ maxDrivers := by
  rw [h.names]
  exact List.length_take_le _ _

/-- While there is room every first name is held. -/
theorem names_of_room (h : r.Recalls history) (hroom : r.names.length < maxDrivers) : r.names = firsts (history.map (·.1)) := by
  rw [h.names, List.length_take] at hroom
  rw [h.names, List.take_of_length_le (by omega)]

/-- A registration is recalled, also one that is refused: it had no room then, and has none ever after. -/
theorem register (h : r.Recalls history) (name : String) (constructor : Constructor) :
    (r.perform (.register name constructor)).2.2.Recalls (history ++ [(name, constructor)]) := by
  unfold perform
  by_cases hroom : r.Knows name ∨ r.names.length < maxDrivers
  · obtain ⟨r', hr', hkept, hadded, hfind⟩ := register_of_room hroom constructor
    simp only [hr']
    constructor
    · rw [List.map_append, List.map_singleton, firsts_concat]
      by_cases hknows : r.Knows name
      · have hfirst : ∃ first ∈ firsts (history.map (·.1)), sameName first name = true := by
          obtain ⟨stored, hstored, hsame⟩ := hknows
          rw [h.names] at hstored
          exact ⟨stored, List.mem_of_mem_take hstored, hsame⟩
        rw [if_pos hfirst, hkept hknows, h.names]
      · have hlength := hroom.resolve_left hknows
        have hnew : ¬∃ first ∈ r.names, sameName first name = true := hknows
        have hfits : (r.names ++ [name]).length ≤ maxDrivers := by
          rw [List.length_append, List.length_singleton]
          exact hlength
        rw [← h.names_of_room hlength, if_neg hnew, hadded hknows, List.take_of_length_le hfits]
    · intro other hother
      rw [hfind, latest_concat]
      by_cases hsame : sameName name other = true
      · rw [if_pos hsame, if_pos hsame]
      · rw [if_neg hsame, if_neg hsame]
        refine h.find? other ?_
        rw [← isSome_find?_iff] at hother ⊢
        rwa [hfind, if_neg hsame] at hother
  -- the name is new and the table full, and names are recalled in the order of their first registrations
  · simp only [register_of_full hroom]
    obtain ⟨hknows, hlength⟩ := not_or.1 hroom
    constructor
    · rw [h.names, List.length_take] at hlength
      rw [List.map_append, List.map_singleton, firsts_concat]
      split
      · exact h.names
      · rw [List.take_append_of_le_length (by omega), h.names]
    · intro other hother
      have hsame : ¬sameName name other = true := fun hsame => hknows ((knows_congr hsame).2 hother)
      rw [latest_concat, if_neg hsame, h.find? other hother]

/-- A command that asks for no registration is not recalled. -/
theorem perform (h : r.Recalls history) (c : Command) :
    (r.perform c).2.2.Recalls (history ++ c.registration?.toList) := by
  cases c with
  | register name constructor => exact h.register name constructor
  | names => simpa [Command.registration?, Registry.perform] using h
  | create name bus config => simpa [Command.registration?, Registry.perform] using h

/-- All that was asked of a registry is recalled. -/
theorem after (h : r.Recalls history) (commands : List Command) :
    (r.after commands).Recalls (history ++ commands.filterMap Command.registration?) := by
  induction commands generalizing r history with
  | nil => rwa [List.filterMap_nil, List.append_nil]
  | cons c commands ih =>
    have hsplit : (c :: commands).filterMap Command.registration? =
        c.registration?.toList ++ commands.filterMap Command.registration? := by
      cases hc : c.registration? <;> simp [hc]
    rw [hsplit, ← List.append_assoc]
    exact ih (h.perform c)

/-- The registry of the built-in drivers recalls them. -/
theorem defaults : Registry.defaults.Recalls Registry.defaults.drivers :=
  empty.after [.register "i2c_extender" .generic, .register "tca6408" .queued]

/-- A registry recalls the drivers that it starts with. -/
theorem start (h : r = .empty ∨ r = .defaults) : r.Recalls r.drivers := by
  rcases h with rfl | rfl
  · exact empty
  · exact defaults

end Recalls

end Registry

/-! ## Making extenders -/

/-- What is logged of what came of making an extender: that it was made, if it was. -/
def Creation.log : Creation → List LogRecord
  | created e => [.driverCreated e.name]
  | refused _ => []
  | faulted _ => []

namespace Registry

variable {r : Registry} {name : String} {constructor : Constructor} {history : List (String × Constructor)} {config : Config}

/-- An unknown driver is refused. -/
theorem create_of_unknown (h : ¬r.Knows name) (bus : Bool) (config : Config) :
    r.create name bus config = (.refused .unknownDriver, []) := by
  rw [create, find?_eq_none_iff.2 h]

/-- A known driver creates its extender if there is a bus. -/
theorem create_of_find? (h : r.find? name = some constructor) (bus : Bool) (config : Config) :
    r.create name bus config = if bus then (constructor config, (constructor config).log) else (.refused .missingBus, []) := by
  rw [create, h]
  cases bus with
  | false => rfl
  | true =>
    simp only [if_true]
    cases constructor config <;> rfl

theorem level_of_mem_log {c : Creation} {record : LogRecord} (h : record ∈ c.log) : record.level = "DEBUG" := by
  cases c with
  | created e => rw [List.mem_singleton.1 h]; rfl
  | refused e => cases h
  | faulted f => cases h

/-- After a registration extenders are made by its constructor under the names that are the same, and under others as before. -/
theorem perform_register_of_room (h : r.Knows name ∨ r.names.length < maxDrivers) (constructor : Constructor) :
    ∃ r', r.perform (.register name constructor) = (.registered, [], r') ∧ ∀ other bus config,
      (foldCase name = foldCase other → r'.create other bus config =
        if bus then (constructor config, (constructor config).log) else (.refused .missingBus, [])) ∧
      (foldCase name ≠ foldCase other → r'.create other bus config = r.create other bus config) := by
  obtain ⟨r', hr', -, -, hfind⟩ := register_of_room h constructor
  refine ⟨r', by rw [perform, hr'], fun other bus config => ⟨fun hsame => ?_, fun hother => ?_⟩⟩
  · refine create_of_find? ?_ bus config
    rw [hfind, if_pos (sameName_iff.2 hsame)]
  · have hkept : r'.find? other = r.find? other := by
      rw [hfind, if_neg (mt sameName_iff.1 hother)]
    rw [create, create, hkept]

/-- A driver is not registered where there is no room for its name. -/
theorem perform_register_of_full (h : ¬(r.Knows name ∨ r.names.length < maxDrivers)) (constructor : Constructor) :
    r.perform (.register name constructor) = (.refused .registryFull, [], r) := by
  rw [perform, register_of_full h]

/-- A name that is known goes with the constructor that was registered last under it. -/
theorem Recalls.exists_latest (hr : r.Recalls history) (h : r.Knows name) :
    ∃ constructor, latest history name = some constructor ∧ r.find? name = some constructor := by
  obtain ⟨constructor, hfind⟩ := Option.isSome_iff_exists.1 (isSome_find?_iff.2 h)
  exact ⟨constructor, hr.find? name h ▸ hfind, hfind⟩

/-- What is refused: a name that is not known, then that there is no bus, then what the constructor refuses. -/
theorem Recalls.refused_iff (hr : r.Recalls history) (bus : Bool) (config : Config) (e : Error) :
    (r.create name bus config).1 = .refused e ↔
      ¬r.Knows name ∧ e = .unknownDriver ∨ (r.Knows name ∧ bus = false) ∧ e = .missingBus ∨
      (r.Knows name ∧ bus = true) ∧ ∃ constructor, latest history name = some constructor ∧ constructor config = .refused e := by
  by_cases hknows : r.Knows name
  · obtain ⟨constructor, hlatest, hfind⟩ := hr.exists_latest hknows
    rw [create_of_find? hfind]
    cases bus <;> simp [hknows, hlatest, eq_comm]
  · simp [create_of_unknown hknows, hknows, eq_comm]

end Registry

/-- Drivers are told apart by their names. After any commands the names are those that were registered first, as they were first spelled
and in that order, no two the same and no more than there is room for. A registration is carried out just if its name is known or there is
room, and else is refused and leaves the registry as it is; after it extenders are made by the new constructor under every spelling of its
name, and as before under every other name. Making an extender is refused if the name is not known, else if there is no bus, and else
comes to what the constructor says that was registered last under the name: so these two refusals mean what they say, unless the
constructor itself refuses so. One record is logged, when the extender is made. -/
theorem drivers_are_told_apart_by_name {start : Registry} (hstart : start = .empty ∨ start = .defaults)
    (commands : List Registry.Command) :
    let r := start.after commands
    let history := start.drivers ++ commands.filterMap Registry.Command.registration?
    (∀ c, start.performAll (commands ++ [c]) = start.performAll commands ++ [((r.perform c).1, (r.perform c).2.1)]) ∧
    r.names = (Registry.firsts (history.map (·.1))).take maxDrivers ∧
    (r.names.Pairwise fun a b => foldCase a ≠ foldCase b) ∧ r.names.length ≤ maxDrivers ∧
    (∀ name constructor,
      (r.Knows name ∨ r.names.length < maxDrivers → ∃ r', r.perform (.register name constructor) = (.registered, [], r') ∧
        ∀ other bus config,
          (foldCase name = foldCase other → r'.create other bus config =
            if bus then (constructor config, (constructor config).log) else (.refused .missingBus, [])) ∧
          (foldCase name ≠ foldCase other → r'.create other bus config = r.create other bus config)) ∧
      (¬(r.Knows name ∨ r.names.length < maxDrivers) →
        r.perform (.register name constructor) = (.refused .registryFull, [], r))) ∧
    ∀ name,
      (¬r.Knows name → ∀ bus config, r.create name bus config = (.refused .unknownDriver, [])) ∧
      (r.Knows name → ∃ constructor, Registry.latest history name = some constructor ∧ ∀ config,
        r.create name false config = (.refused .missingBus, []) ∧
        r.create name true config = (constructor config, (constructor config).log) ∧
        ∀ record ∈ (constructor config).log, record.level = "DEBUG") ∧
      ∀ bus config,
        ((∀ constructor, Registry.latest history name = some constructor → constructor config ≠ .refused .unknownDriver) →
          ((r.create name bus config).1 = .refused .unknownDriver ↔ ¬r.Knows name)) ∧
        ((∀ constructor, Registry.latest history name = some constructor → constructor config ≠ .refused .missingBus) →
          ((r.create name bus config).1 = .refused .missingBus ↔ r.Knows name ∧ bus = false)) := by
  intro r history
  have hr : r.Recalls history := (Registry.Recalls.start hstart).after commands
  have hdiffer : r.names.Pairwise fun a b => foldCase a ≠ foldCase b :=
    hr.pairwise.imp fun h => mt Registry.sameName_iff.2 h
  refine ⟨start.performAll_concat commands, hr.names, hdiffer, hr.length_le, fun name constructor => ⟨?_, ?_⟩, fun name => ⟨?_, ?_, ?_⟩⟩
  · intro hroom
    exact Registry.perform_register_of_room hroom constructor
  · intro hfull
    exact Registry.perform_register_of_full hfull constructor
  · intro hunknown
    exact Registry.create_of_unknown hunknown
  · intro hknows
    obtain ⟨constructor, hlatest, hfind⟩ := hr.exists_latest hknows
    refine ⟨constructor, hlatest, fun config => ⟨?_, ?_, fun record => Registry.level_of_mem_log⟩⟩
    · exact Registry.create_of_find? hfind false config
    · exact Registry.create_of_find? hfind true config
  · intro bus config
    refine ⟨fun hnot => ?_, fun hnot => ?_⟩
    · rw [hr.refused_iff]
      grind
    · rw [hr.refused_iff]
      grind

/-- Six drivers are registered beside the two that there are at first. A seventh has no room, and the first two are still replaced, under
any spelling of their names. -/
theorem drivers_are_told_apart_by_name_of_a_full_registry :
    let maker : Constructor := .ofPlace Device.pca9554.family 7
    let commands := ["a", "b", "c", "d", "e", "f"].map fun name => Registry.Command.register name maker
    let r := Registry.defaults.after commands
    r.names = ["i2c_extender", "tca6408", "a", "b", "c", "d", "e", "f"] ∧
    r.perform (.register "g" maker) = (.refused .registryFull, [], r) ∧
    ∃ r', r.perform (.register "TCA6408" maker) = (.registered, [], r') ∧ ∀ config,
      r'.create "Tca6408" true config = (maker config, (maker config).log) ∧
      r'.create "I2C_extender" true config = (Constructor.generic config, (Constructor.generic config).log) ∧
      r'.create "g" true config = (.refused .unknownDriver, []) := by
  intro maker commands r
  obtain ⟨-, hnames, -, -, hregister, hcreate⟩ := drivers_are_told_apart_by_name (.inr rfl) commands
  replace hnames : r.names = ["i2c_extender", "tca6408", "a", "b", "c", "d", "e", "f"] := hnames.trans (by decide +kernel)
  have hg : ¬r.Knows "g" := by
    rw [Registry.Knows, hnames]
    decide +kernel
  have hfull : ¬(r.Knows "g" ∨ r.names.length < maxDrivers) := not_or.2 ⟨hg, by rw [hnames]; decide⟩
  have htca : r.Knows "TCA6408" := by
    rw [Registry.Knows, hnames]
    decide +kernel
  have hi2c : r.Knows "I2C_extender" := by
    rw [Registry.Knows, hnames]
    decide +kernel
  obtain ⟨r', hr', hnext⟩ := (hregister "TCA6408" maker).1 (.inl htca)
  obtain ⟨constructor, hlatest, hmade⟩ := (hcreate "I2C_extender").2.1 hi2c
  have hgeneric : Registry.latest (Registry.defaults.drivers ++ commands.filterMap Registry.Command.registration?) "I2C_extender" =
      some .generic := by
    simp [commands, Registry.latest, Registry.defaults, Registry.Command.registration?, Registry.sameName, foldCase]
  refine ⟨hnames, (hregister "g" maker).2 hfull, r', hr', fun config => ⟨?_, ?_, ?_⟩⟩
  · exact (hnext "Tca6408" true config).1 (by decide +kernel)
  · obtain rfl : Constructor.generic = constructor := Option.some.inj (hgeneric.symm.trans hlatest)
    exact ((hnext "I2C_extender" true config).2 (by decide +kernel)).trans (hmade config).2.1
  · exact ((hnext "g" true config).2 (by decide +kernel)).trans ((hcreate "g").1 hg true config)

end PortExpander
