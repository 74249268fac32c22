import Fecraw.Ports.CommandLine
import Fecraw.Ports.Network

/-!
# The role of a process

`is_server` is -1 until an option or the key `mode` of `[general]` selects a
role.  `parse_cli` checks it after the options, but not when it returns after a
configuration file, and both parts of the program take every value other than 0
for a server.

## Main results

* `parseCli_isServer`: the role after `parse_cli` is the one selected last.
* `chosen_iff`: a started process has a chosen role exactly when a configuration
  file that is reached comes after a role option or sets `mode`.
-/

namespace Fecraw.Ports.Config

open Fecraw.Ports.Network

/-- The value of `is_server` that `mode` in `[general]` selects. -/
def roleOfKey (sec key val : List Char) : Option Int :=
  if sec = "general".toList ∧ key = "mode".toList then
    if val = "server".toList then some 1
    else if val = "client".toList then some 0
    else none
  else none

/-- The value of `is_server` that an option selects. -/
def roleOfOption : CliOption → Option Int
  | .server => some 1
  | .client => some 0
  | _ => none

/-- `program_mode` after `apply_fec_globals`, and also after `raw_api_init`, which
gets `is_server` unchanged from `fill_raw_config`. -/
def programMode (cfg : FecrawConfig) : ProgramMode :=
  if cfg.isServer ≠ 0 then .server else .client

/-! ## The setting -/

theorem isServer_setOption (cfg : FecrawConfig) (opt : CliOption) :
    (setOption cfg opt).isServer = ((roleOfOption opt).map id).getD cfg.isServer := by
  cases opt with
  | listen val =>
      obtain ⟨addr, port, heq⟩ := setListen_eq cfg val
      show (setListen cfg val).isServer = cfg.isServer
      rw [heq]
  | remote val =>
      obtain ⟨addr, port, heq⟩ := setRemote_eq cfg val
      show (setRemote cfg val).isServer = cfg.isServer
      rw [heq]
  | _ => rfl

theorem isServer_setNetwork (cfg : FecrawConfig) (key val : List Char) :
    (setNetwork cfg key val).isServer = cfg.isServer := by
  unfold setNetwork
  split_ifs
  · exact isServer_setOption cfg (.listen val)
  · exact isServer_setOption cfg (.remote val)
  all_goals rfl

theorem isServer_setKey (cfg : FecrawConfig) (sec key val : List Char) (cfg' : FecrawConfig)
    (hok : setKey cfg sec key val = some cfg') :
    cfg'.isServer = ((roleOfKey sec key val).map id).getD cfg.isServer := by
  unfold setKey at hok
  unfold roleOfKey
  split at hok
  next hsec =>
    unfold setGeneral at hok
    split at hok
    next hmode =>
      rw [if_pos ⟨hsec, hmode⟩]
      split_ifs at hok ⊢ <;> cases hok <;> rfl
    next hmode =>
      rw [if_neg fun h => hmode h.2]
      split_ifs at hok <;> cases hok <;> rfl
  next hsec =>
    rw [if_neg fun h => hsec h.1]
    split_ifs at hok <;> cases hok
    · exact isServer_setNetwork cfg key val
    · unfold setVpn
      split_ifs <;> rfl
    · unfold setFec
      split_ifs <;> rfl
    · rfl

/-- `is_server`. -/
def roleSetting : Setting Int Int where
  get := FecrawConfig.isServer
  put := id
  ofOption := roleOfOption
  ofKey := roleOfKey
  get_setOption := isServer_setOption
  get_setKey := isServer_setKey

theorem ofKey_roleSetting : roleSetting.ofKey = roleOfKey := rfl

/-- The roles that options and lines select, in this order, before `parse_cli`
returns. -/
def roles (opts : List CliOption) : List Int := roleSetting.given opts

/-- The role after `parse_cli` is the one selected last. -/
theorem parseCli_isServer {opts : List CliOption} {cfg cfg' : FecrawConfig}
    (hok : parseCli cfg opts = some cfg') :
    cfg'.isServer = (roles opts).getLast?.getD cfg.isServer := by
  have hlast : cfg'.isServer = (((roles opts).getLast?).map id).getD cfg.isServer :=
    roleSetting.get_parseCli hok
  rwa [Option.map_id] at hlast

theorem mem_roleOfKey {sec key val : List Char} {role : Int} (h : role ∈ roleOfKey sec key val) :
    role = 0 ∨ role = 1 := by
  unfold roleOfKey at h
  split_ifs at h
  · exact .inr (Option.some.inj h).symm
  · exact .inl (Option.some.inj h).symm
  all_goals exact absurd h (by simp)

theorem mem_roleOfOption {opt : CliOption} {role : Int} (h : role ∈ roleOfOption opt) :
    role = 0 ∨ role = 1 := by
  cases opt with
  | server => exact .inr (Option.some.inj h).symm
  | client => exact .inl (Option.some.inj h).symm
  | _ => exact absurd h (by simp [roleOfOption])

theorem mem_roles {opts : List CliOption} : ∀ role ∈ roles opts, role = 0 ∨ role = 1 :=
  roleSetting.forall_mem_given (fun _ _ h => mem_roleOfOption h) (fun _ _ _ _ h => mem_roleOfKey h)
    opts

/-! ## When a role is chosen -/

/-- A line of a file sets `mode` in `[general]`. -/
def SetsMode (lines : List (List Char)) (sec : List Char) : Prop :=
  ∃ before raw after, lines = before ++ raw :: after ∧
    before.foldl sectionAfter sec = "general".toList ∧ keyOf raw = some "mode".toList

/-- A configuration file that is reached comes after a role option, or sets `mode`. -/
def NamesMode (opts : List CliOption) : Prop :=
  ∀ before text after, opts = before ++ .config (some text) :: after →
    (∀ text, .config text ∉ before) →
    .server ∈ before ∨ .client ∈ before ∨ SetsMode (text.splitOn '\n') []

/-- A role was chosen: `is_server` is the one selected last, and the process starts as
a server only if that was the server. -/
def Chosen (opts : List CliOption) (cfg : FecrawConfig) : Prop :=
  (cfg.isServer = 0 ∨ cfg.isServer = 1) ∧ (roles opts).getLast? = some cfg.isServer ∧
    (programMode cfg = .server → (roles opts).getLast? = some 1)

/-- There is a choice as soon as a role was selected. -/
theorem chosen_iff_roles {opts : List CliOption} {cfg cfg' : FecrawConfig}
    (hok : parseCli cfg opts = some cfg') : Chosen opts cfg' ↔ roles opts ≠ [] := by
  have hserver := parseCli_isServer hok
  constructor
  · rintro ⟨-, hlast, -⟩ hnil
    rw [hnil] at hlast
    exact absurd hlast (by simp)
  · intro hne
    obtain ⟨role, hlast⟩ := Option.isSome_iff_exists.mp (List.getLast?_isSome.mpr hne)
    rw [hlast, Option.getD_some] at hserver
    have hrole := mem_roles role (List.mem_of_getLast? hlast)
    rw [← hserver] at hlast hrole
    refine ⟨hrole, hlast, fun hmode => ?_⟩
    rcases hrole with hzero | hone
    · unfold programMode at hmode
      rw [if_neg (by simp [hzero])] at hmode
      cases hmode
    · rw [hlast, hone]

theorem mode_of_roleOfKey {sec key val : List Char} {role : Int}
    (h : roleOfKey sec key val = some role) : sec = "general".toList ∧ key = "mode".toList := by
  unfold roleOfKey at h
  split at h
  · assumption
  · cases h

/-- An accepted value of `mode` selects a role. -/
theorem roleOfKey_of_setKey {cfg cfg' : FecrawConfig} {val : List Char}
    (hok : setKey cfg "general".toList "mode".toList val = some cfg') :
    ∃ role, roleOfKey "general".toList "mode".toList val = some role := by
  change setGeneral cfg "mode".toList val = some cfg' at hok
  unfold setGeneral at hok
  unfold roleOfKey
  rw [if_pos rfl] at hok
  rw [if_pos ⟨rfl, rfl⟩]
  split_ifs at hok ⊢
  · exact ⟨1, rfl⟩
  · exact ⟨0, rfl⟩

theorem ofLine_of_mode {st st' : List Char × FecrawConfig} {raw : List Char}
    (hsec : st.1 = "general".toList) (hkey : keyOf raw = some "mode".toList)
    (hok : parseLine st raw = some st') : ∃ role, roleSetting.ofLine st.1 raw = some role := by
  rw [parseLine_of_keyOf hkey] at hok
  obtain ⟨cfg', hset, -⟩ := Option.map_eq_some_iff.mp hok
  unfold Setting.ofLine
  rw [hkey, Option.bind_some, ofKey_roleSetting]
  rw [hsec] at hset ⊢
  exact roleOfKey_of_setKey hset

/-- The lines of an accepted file select a role exactly if one sets `mode`. -/
theorem ofLines_ne_nil_iff {lines : List (List Char)} {st st' : List Char × FecrawConfig}
    (hok : lines.foldlM parseLine st = some st') :
    roleSetting.ofLines st.1 lines ≠ [] ↔ SetsMode lines st.1 := by
  induction lines generalizing st with
  | nil =>
      refine ⟨fun h => absurd rfl h, ?_⟩
      rintro ⟨before, raw, after, heq, -, -⟩
      exact absurd heq (by simp)
  | cons raw lines ih =>
      rw [List.foldlM_cons] at hok
      obtain ⟨st₁, hline, hrest⟩ := Option.bind_eq_some_iff.mp hok
      have hsec := parseLine_section hline
      have ih := ih hrest
      rw [hsec] at ih
      constructor
      · intro hne
        cases hrole : roleSetting.ofLine st.1 raw with
        | some role =>
            obtain ⟨key, hkey, hset⟩ := Option.bind_eq_some_iff.mp hrole
            obtain ⟨hgeneral, rfl⟩ := mode_of_roleOfKey hset
            exact ⟨[], raw, lines, rfl, hgeneral, hkey⟩
        | none =>
            rw [Setting.ofLines, hrole] at hne
            obtain ⟨before, mode, after, rfl, hbefore, hmode⟩ := ih.mp hne
            exact ⟨raw :: before, mode, after, rfl, hbefore, hmode⟩
      · rintro ⟨before, mode, after, heq, hbefore, hmode⟩
        cases before with
        | nil =>
            obtain ⟨rfl, rfl⟩ := List.cons.inj heq
            obtain ⟨role, hrole⟩ := ofLine_of_mode hbefore hmode hline
            rw [Setting.ofLines, hrole]
            exact List.cons_ne_nil _ _
        | cons first before =>
            obtain ⟨rfl, rfl⟩ := List.cons.inj heq
            have hne := ih.mpr ⟨before, mode, after, rfl, hbefore, hmode⟩
            exact List.append_ne_nil_of_right_ne_nil _ hne

/-- The first option matters only if it is a role or a file. -/
theorem namesMode_cons {opt : CliOption} {rest : List CliOption}
    (hconfig : ∀ text, opt ≠ .config text) :
    NamesMode (opt :: rest) ↔ opt = .server ∨ opt = .client ∨ NamesMode rest := by
  constructor
  · intro h
    by_contra hnone
    rw [not_or, not_or] at hnone
    obtain ⟨hserver, hclient, hrest⟩ := hnone
    refine hrest fun before text after heq hbefore => ?_
    have hnames := h (opt :: before) text after (by rw [heq]; rfl) fun text hmem => ?_
    · rw [List.mem_cons, List.mem_cons] at hnames
      rcases hnames with (hs | hs) | (hc | hc) | hsets
      · exact absurd hs.symm hserver
      · exact .inl hs
      · exact absurd hc.symm hclient
      · exact .inr (.inl hc)
      · exact .inr (.inr hsets)
    · rcases List.mem_cons.mp hmem with heq | hmem
      · exact hconfig text heq.symm
      · exact hbefore text hmem
  · intro h before text after heq hbefore
    cases before with
    | nil => exact absurd (List.cons.inj heq).1 (hconfig _)
    | cons first before =>
        obtain ⟨rfl, rfl⟩ := List.cons.inj heq
        rcases h with rfl | rfl | hrest
        · exact .inl List.mem_cons_self
        · exact .inr (.inl List.mem_cons_self)
        · have hrest := hrest before text after rfl fun text hmem =>
            hbefore text (List.mem_cons_of_mem _ hmem)
          exact hrest.imp (List.mem_cons_of_mem _) (Or.imp (List.mem_cons_of_mem _) id)

theorem namesMode_config {text : List Char} {rest : List CliOption} :
    NamesMode (.config (some text) :: rest) ↔ SetsMode (text.splitOn '\n') [] := by
  constructor
  · intro h
    rcases h [] text rest rfl (fun _ => List.not_mem_nil) with hmem | hmem | hsets
    · exact absurd hmem List.not_mem_nil
    · exact absurd hmem List.not_mem_nil
    · exact hsets
  · intro h before text' after heq hbefore
    cases before with
    | nil =>
        obtain ⟨heq, -⟩ := List.cons.inj heq
        cases heq
        exact .inr (.inr h)
    | cons first before =>
        obtain ⟨rfl, -⟩ := List.cons.inj heq
        exact absurd List.mem_cons_self (hbefore _)

/-- Of an accepted command line: if nothing is selected yet, a role is selected
exactly if the file names one. -/
theorem roles_ne_nil_iff {opts : List CliOption} {cfg cfg' : FecrawConfig}
    (hok : parseCli cfg opts = some cfg') (hunset : cfg.isServer < 0) :
    roles opts ≠ [] ↔ NamesMode opts := by
  induction opts generalizing cfg with
  | nil =>
      rw [parseCli, if_pos hunset] at hok
      cases hok
  | cons opt rest ih =>
      cases opt with
      | config text =>
          obtain ⟨text, rfl, htext⟩ := Option.bind_eq_some_iff.mp hok
          obtain ⟨st, hlines, rfl⟩ := Option.map_eq_some_iff.mp htext
          rw [namesMode_config]
          exact ofLines_ne_nil_iff hlines
      | stops => exact absurd hok (by simp [parseCli])
      | server | client =>
          rw [namesMode_cons (by simp)]
          simp [roles, Setting.given, roleSetting, roleOfOption]
      | _ =>
          rw [namesMode_cons (by simp), ← ih hok]
          · simp [roles, Setting.given, roleSetting, roleOfOption]
          · rw [isServer_setOption]
            exact hunset

/-- A started process has a chosen role exactly when a configuration file that it
reaches comes after a role option or sets `mode`. -/
theorem chosen_iff {start : Start} {cfg : FecrawConfig} (hok : start.parse = some cfg) :
    Chosen start.options cfg ↔ NamesMode start.options := by
  rw [chosen_iff_roles hok]
  exact roles_ne_nil_iff hok (by decide)

/-- `fecraw --config c.toml`, with the text of the file. -/
def configOnly (text : List Char) : Start where
  argv := ["fecraw".toList, "--config".toList, "c.toml".toList]
  files := fun _ => some text

/-- A file that selects the client. -/
theorem chosen_client : ∃ cfg,
    (configOnly "[general]\nmode = \"client\"".toList).parse = some cfg ∧ cfg.isServer = 0 ∧
    Chosen (configOnly "[general]\nmode = \"client\"".toList).options cfg := by
  refine ⟨_, rfl, rfl, (chosen_iff rfl).mpr ?_⟩
  refine namesMode_config.mpr ⟨["[general]".toList], "mode = \"client\"".toList, [], ?_, ?_, ?_⟩
  · decide
  · decide
  · decide

/-- A file without `mode` starts a server. -/
theorem not_chosen_without_mode : ∃ cfg,
    (configOnly "[general]\nkey = \"passwd\"".toList).parse = some cfg ∧
    cfg.isServer = -1 ∧ programMode cfg = .server ∧
    roles (configOnly "[general]\nkey = \"passwd\"".toList).options = [] ∧
    ¬ Chosen (configOnly "[general]\nkey = \"passwd\"".toList).options cfg := by
  refine ⟨_, rfl, rfl, rfl, by decide, ?_⟩
  rintro ⟨hrole | hrole, -, -⟩
  · exact absurd hrole (by decide)
  · exact absurd hrole (by decide)

end Fecraw.Ports.Config
