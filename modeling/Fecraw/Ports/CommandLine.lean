import Fecraw.Ports.ConfigText

/-!
# The command line

`getopt_long` with the two option tables of `parse_cli`, and what the options
and the lines of a configuration file give for one setting.

An element of `argv` is the list of its octets.  `getoptLong` finds the options
in the order in which GNU `getopt_long` does: other arguments are skipped,
unless `POSIXLY_CORRECT` is set, and `--` ends the options.

A `Setting` is a field of the configuration together with the options and keys
that set it.  Whatever the command line and the file are, the field has in the
end what was given last.

## Main results

* `Setting.get_parseLine`: what a line does to the field of a setting.
* `Setting.get_parseCli`: the field after `parse_cli` has the value given last.
-/

namespace Fecraw.Ports.Config

/-! ## `getopt_long` -/

/-- What an option of a table stands for. -/
inductive Handler (ω : Type) where
  /-- `no_argument`. -/
  | flag (opt : ω)
  /-- `required_argument`. -/
  | required (opt : List Char → ω)

/-- The options that are looked for, and what `?` stands for. -/
structure OptionTable (ω : Type) where
  short : List (Char × Handler ω)
  long : List (List Char × Handler ω)
  unknown : ω

namespace OptionTable

variable {ω : Type} (t : OptionTable ω)

/-- The long option with a name: the exact one, or the only one that starts so. -/
def find (name : List Char) : Option (Handler ω) :=
  match t.long.lookup name with
  | some handler => some handler
  | none =>
      match t.long.filter fun entry => name.isPrefixOf entry.1 with
      | [entry] => some entry.2
      | _ => none

/-- The long option of an element, without its `--`.  The second part is an option
that still needs an argument. -/
def longOption (arg : List Char) : List ω × Option (List Char → ω) :=
  match t.find (arg.takeWhile (· ≠ '=')), arg.dropWhile (· ≠ '=') with
  | none, _ => ([t.unknown], none)
  | some (.flag opt), [] => ([opt], none)
  | some (.flag _), _ :: _ => ([t.unknown], none)
  | some (.required opt), [] => ([], some opt)
  | some (.required opt), _ :: val => ([opt val], none)

/-- The short options of an element, without its `-`. -/
def shortOptions : List Char → List ω × Option (List Char → ω)
  | [] => ([], none)
  | c :: rest =>
      match t.short.lookup c with
      | none => (t.unknown :: (shortOptions rest).1, (shortOptions rest).2)
      | some (.flag opt) => (opt :: (shortOptions rest).1, (shortOptions rest).2)
      | some (.required opt) => if rest = [] then ([], some opt) else ([opt rest], none)

/-- The options that `getopt_long` finds, while one may still need an argument. -/
def getoptLong (posix : Bool) : Option (List Char → ω) → List (List Char) → List ω
  | none, [] => []
  | some _, [] => [t.unknown]
  | some opt, arg :: rest => opt arg :: getoptLong posix none rest
  | none, arg :: rest =>
      if arg = ['-', '-'] then []
      else if arg.take 2 = ['-', '-'] then
        (t.longOption (arg.drop 2)).1 ++ getoptLong posix (t.longOption (arg.drop 2)).2 rest
      else if arg.head? = some '-' ∧ arg ≠ ['-'] then
        (t.shortOptions arg.tail).1 ++ getoptLong posix (t.shortOptions arg.tail).2 rest
      else if posix then []
      else getoptLong posix none rest

end OptionTable

/-! ## The options of the program -/

/-- The option string and `long_options`; `files` has the files that can be read. -/
def optionTable (files : List Char → Option (List Char)) : OptionTable CliOption where
  short := [('C', .required fun path => .config (files path)), ('G', .required fun _ => .stops),
    ('g', .required fun _ => .stops), ('T', .flag .stops), ('s', .flag .server),
    ('c', .flag .client), ('l', .required .listen), ('r', .required .remote),
    ('k', .required .key), ('f', .required .fec), ('a', .flag .other), ('h', .flag .stops)]
  long := [("config".toList, .required fun path => .config (files path)),
    ("gen-config-server".toList, .required fun _ => .stops),
    ("gen-config-client".toList, .required fun _ => .stops),
    ("tui".toList, .flag .stops),
    ("server".toList, .flag .server),
    ("client".toList, .flag .client),
    ("listen".toList, .required .listen),
    ("remote".toList, .required .remote),
    ("key".toList, .required .key),
    ("raw-mode".toList, .required .rawMode),
    ("cipher".toList, .required .cipher),
    ("auth".toList, .required .auth),
    ("subnet".toList, .required .subnet),
    ("tun-dev".toList, .required .tunDev),
    ("tun-mtu".toList, .required .tunMtu),
    ("fec".toList, .required .fec),
    ("fec-timeout".toList, .required .fecTimeout),
    ("seq-mode".toList, .required fun _ => .other),
    ("auto-rule".toList, .flag .other),
    ("keep-reconnect".toList, .flag .other),
    ("log-level".toList, .required fun _ => .other),
    ("disable-fec".toList, .flag .disableFec),
    ("adaptive-fec".toList, .flag .adaptiveFec),
    ("small-pkt".toList, .required .smallPkt),
    ("enable-pacing".toList, .flag .other),
    ("max-bandwidth".toList, .required fun _ => .other),
    ("help".toList, .flag .stops)]
  unknown := .stops

/-- What a process is started with. -/
structure Start where
  argv : List (List Char)
  /-- The files that can be read, with their texts. -/
  files : List Char → Option (List Char)
  /-- `POSIXLY_CORRECT` is set. -/
  posix : Bool := false

/-- The options that `parse_cli` comes to, if it does not return before. -/
def Start.options (start : Start) : List CliOption :=
  (optionTable start.files).getoptLong start.posix none start.argv.tail

/-- `parse_cli` on `argv` and a new configuration. -/
def Start.parse (start : Start) : Option FecrawConfig := parseCli {} start.options

/-! ## Settings -/

/-- The value that a line gives to its key. -/
def valueOf (raw : List Char) : List Char :=
  stripQuotes (stripInlineComment ((stripInlineComment raw).dropWhile (· ≠ '=')).tail)

/-- A line that sets a key. -/
theorem parseLine_of_keyOf {st : List Char × FecrawConfig} {raw key : List Char}
    (hkey : keyOf raw = some key) :
    parseLine st raw = (setKey st.2 st.1 key (valueOf raw)).map fun cfg => (st.1, cfg) := by
  unfold keyOf at hkey
  dsimp only at hkey
  split at hkey
  · cases hkey
  next hline =>
    obtain rfl := Option.some.inj hkey
    rw [not_or, not_or, not_or, not_not] at hline
    obtain ⟨hne, hsharp, hhead, heq⟩ := hline
    unfold parseLine
    dsimp only
    rw [if_neg (not_or.mpr ⟨hne, hsharp⟩), if_neg hhead, if_pos heq]
    rfl

/-- A line that sets no key leaves the configuration alone. -/
theorem parseLine_of_keyOf_none {st st' : List Char × FecrawConfig} {raw : List Char}
    (hkey : keyOf raw = none) (hok : parseLine st raw = some st') : st'.2 = st.2 := by
  unfold keyOf at hkey
  unfold parseLine at hok
  dsimp only at hkey hok
  split at hkey
  next hline =>
    split at hok
    · cases hok
      rfl
    next hstarts =>
      split at hok
      · split at hok <;> cases hok <;> rfl
      next hhead =>
        rw [if_neg (by tauto)] at hok
        cases hok
        rfl
  · cases hkey

/-- A field of the configuration, and the values that options and keys give it. -/
structure Setting (α β : Type) where
  get : FecrawConfig → β
  /-- What is in the field when a value was given. -/
  put : α → β
  ofOption : CliOption → Option α
  ofKey : (sec key val : List Char) → Option α
  get_setOption : ∀ cfg opt, get (setOption cfg opt) = ((ofOption opt).map put).getD (get cfg)
  get_setKey : ∀ cfg sec key val cfg', setKey cfg sec key val = some cfg' →
    get cfg' = ((ofKey sec key val).map put).getD (get cfg)

namespace Setting

variable {α β : Type} (s : Setting α β)

/-- The value that a line gives in a section. -/
def ofLine (sec raw : List Char) : Option α :=
  (keyOf raw).bind fun key => s.ofKey sec key (valueOf raw)

/-- The values that lines give, starting in a section. -/
def ofLines : List Char → List (List Char) → List α
  | _, [] => []
  | sec, raw :: rest => (s.ofLine sec raw).toList ++ ofLines (sectionAfter sec raw) rest

/-- The values that are given before `parse_cli` returns. -/
def given : List CliOption → List α
  | [] => []
  | .config text :: _ => (text.map fun text => s.ofLines [] (text.splitOn '\n')).getD []
  | .stops :: _ => []
  | opt :: rest => (s.ofOption opt).toList ++ given rest

/-- What a field has after values were given one after the other. -/
def last (old : β) (values : List α) : β := (values.getLast?.map s.put).getD old

variable {s}

theorem last_toList_append (old : β) (value : Option α) (values : List α) :
    s.last old (value.toList ++ values) = s.last ((value.map s.put).getD old) values := by
  unfold last
  rw [List.getLast?_append]
  cases values.getLast? with
  | none => cases value <;> rfl
  | some a => rfl

/-- What a line does to the field. -/
theorem get_parseLine {st st' : List Char × FecrawConfig} {raw : List Char}
    (hok : parseLine st raw = some st') :
    s.get st'.2 = ((s.ofLine st.1 raw).map s.put).getD (s.get st.2) := by
  unfold ofLine
  cases hkey : keyOf raw with
  | none =>
      rw [parseLine_of_keyOf_none hkey hok]
      rfl
  | some key =>
      rw [parseLine_of_keyOf hkey] at hok
      obtain ⟨cfg', hset, rfl⟩ := Option.map_eq_some_iff.mp hok
      exact s.get_setKey _ _ _ _ _ hset

/-- What lines do to the field. -/
theorem get_lines {lines : List (List Char)} {st st' : List Char × FecrawConfig}
    (hok : lines.foldlM parseLine st = some st') :
    s.get st'.2 = s.last (s.get st.2) (s.ofLines st.1 lines) := by
  induction lines generalizing st with
  | nil =>
      cases hok
      rfl
  | cons raw lines ih =>
      rw [List.foldlM_cons] at hok
      obtain ⟨st₁, hline, hrest⟩ := Option.bind_eq_some_iff.mp hok
      rw [ih hrest, ofLines, last_toList_append, parseLine_section hline, get_parseLine hline]

/-- The field after `parse_cli` has the value given last. -/
theorem get_parseCli {opts : List CliOption} {cfg cfg' : FecrawConfig}
    (hok : parseCli cfg opts = some cfg') : s.get cfg' = s.last (s.get cfg) (s.given opts) := by
  induction opts generalizing cfg with
  | nil =>
      rw [parseCli] at hok
      split at hok
      · exact absurd hok (by simp)
      · cases hok
        rfl
  | cons opt rest ih =>
      cases opt with
      | config text =>
          obtain ⟨text, rfl, htext⟩ := Option.bind_eq_some_iff.mp hok
          obtain ⟨st, hlines, rfl⟩ := Option.map_eq_some_iff.mp htext
          exact get_lines hlines
      | stops => exact absurd hok (by simp [parseCli])
      | _ =>
          rw [ih hok, s.get_setOption, ← last_toList_append]
          rfl

/-- What is so of every value that an option or a key gives. -/
theorem forall_mem_given {P : α → Prop} (hoption : ∀ opt, ∀ a ∈ s.ofOption opt, P a)
    (hkey : ∀ sec key val, ∀ a ∈ s.ofKey sec key val, P a) (opts : List CliOption) :
    ∀ a ∈ s.given opts, P a := by
  have hlines : ∀ lines sec, ∀ a ∈ s.ofLines sec lines, P a := by
    intro lines
    induction lines with
    | nil => exact fun sec a ha => absurd ha List.not_mem_nil
    | cons raw lines ih =>
        intro sec a ha
        rcases List.mem_append.mp ha with ha | ha
        · obtain ⟨key, -, hset⟩ := Option.bind_eq_some_iff.mp (Option.mem_toList.mp ha)
          exact hkey _ _ _ a hset
        · exact ih _ a ha
  induction opts with
  | nil => exact fun a ha => absurd ha List.not_mem_nil
  | cons opt rest ih =>
      intro a ha
      cases opt with
      | config text =>
          cases text with
          | none => exact absurd ha List.not_mem_nil
          | some text => exact hlines _ _ a ha
      | stops => exact absurd ha List.not_mem_nil
      | _ =>
          rcases List.mem_append.mp ha with ha | ha
          · exact hoption _ a (Option.mem_toList.mp ha)
          · exact ih a ha

end Setting

end Fecraw.Ports.Config
