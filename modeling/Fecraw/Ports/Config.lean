import Fecraw.Ports.RsTable
import Mathlib.Data.List.DropRight

/-!
# The configuration

A port of `parse_toml_config`, of `parse_cli` and of the part of
`apply_fec_globals` that sets the FEC parameters.  Text is a list of
characters; a character stands for one octet.  `getopt_long` is not modelled:
`parseCli` takes the options it found.

The settings of the `[advanced]` section, and the options for them, are left
out: nothing here reads them.

## Main results

* `ranged_parseCli`: the integers of an accepted configuration are `int`s.
* `applyFec_spec`: the parameters that an accepted configuration gives.
-/

namespace Fecraw.Ports.Config

open Fecraw.Verified.Scan Fecraw.Ports.RsTable

/-- `fecraw_config_t`. -/
structure FecrawConfig where
  /-- 0 client, 1 server. -/
  isServer : Int := -1
  key : List Char := []
  listenAddr : List Char := "0.0.0.0".toList
  listenPort : Int := 4096
  remoteAddr : List Char := []
  remotePort : Int := 4096
  rawMode : Int := 0
  cipherMode : Int := 1
  authMode : Int := 0
  subnet : List Char := "10.22.22.0".toList
  tunDev : List Char := []
  tunMtu : Int := 1380
  fecMode : Int := 0
  fecStr : List Char := "20:10".toList
  fecTimeout : Int := 8
  fecMtu : Int := 1250
  disableFec : Bool := false
  fecAdaptive : Bool := false
  smallPacketThreshold : Int := 0
  smallPacketRedundancy : Int := 2
deriving Repr, DecidableEq

/-! ## Text -/

/-- The characters that `trim_ws` takes off. -/
def isWs (c : Char) : Bool := c = ' ' || c = '\t' || c = '\r' || c = '\n'

/-- `trim_ws`. -/
def trimWs (s : List Char) : List Char := (s.dropWhile isWs).rdropWhile isWs

/-- `strip_quotes`. -/
def stripQuotes (s : List Char) : List Char :=
  if 2 ≤ s.length ∧ s.head? = some '\x22' ∧ s.getLast? = some '\x22' then s.tail.dropLast else s

/-- The loop of `strip_inline_comment`: what stands in front of the comment. -/
def beforeComment (inQuote escaped : Bool) : List Char → List Char
  | [] => []
  | c :: s =>
      if escaped then c :: beforeComment inQuote false s
      else if inQuote ∧ c = '\x5c' then c :: beforeComment inQuote true s
      else if c = '\x22' then c :: beforeComment (!inQuote) false s
      else if inQuote = false ∧ c = '#' then []
      else c :: beforeComment inQuote false s

/-- `strip_inline_comment`. -/
def stripInlineComment (s : List Char) : List Char := trimWs (beforeComment false false s)

/-- `parse_bool_like`; `none` is the return value `-1`. -/
def parseBoolLike (raw : List Char) : Option Bool :=
  let v := (trimWs raw).map Char.toLower
  if v = "1".toList ∨ v = "true".toList ∨ v = "yes".toList ∨ v = "on".toList then some true
  else if v = "0".toList ∨ v = "false".toList ∨ v = "no".toList ∨ v = "off".toList then some false
  else none

/-- `atoi`. -/
def atoi (s : List Char) : Int := ((scanInt s).map Prod.fst).getD 0

/-- `strncpy(dst, s, n)`, as the string that is in `dst` afterwards; the octet
after the first `n` is 0, since the configuration is a global object. -/
def strncpy (n : Nat) (s : List Char) : List Char := (s.takeWhile (· ≠ '\x00')).take n

/-- The value that a table has for a name, or the value that was there. -/
def choose (table : List (List Char × Int)) (old : Int) (val : List Char) : Int :=
  (table.lookup val).getD old

/-- An address and a port, divided at the last colon. -/
def splitAddr (val : List Char) : Option (List Char × List Char) :=
  let rev := val.reverse
  if ':' ∈ rev then
    some ((rev.dropWhile (· ≠ ':')).tail.reverse, (rev.takeWhile (· ≠ ':')).reverse)
  else none

def rawModes : List (List Char × Int) :=
  [("faketcp".toList, 0), ("udp".toList, 1), ("icmp".toList, 2)]

def ciphers : List (List Char × Int) :=
  [("aes128cfb".toList, 0), ("aes128cbc".toList, 1), ("xor".toList, 2), ("none".toList, 3),
    ("aes256gcm".toList, 4), ("chacha20poly1305".toList, 5), ("auto".toList, 6)]

def auths : List (List Char × Int) :=
  [("hmac_sha1".toList, 0), ("md5".toList, 1), ("crc32".toList, 2), ("simple".toList, 3),
    ("none".toList, 4)]

/-! ## The configuration file -/

/-- `listen = "ip:port"`. -/
def setListen (cfg : FecrawConfig) (val : List Char) : FecrawConfig :=
  match splitAddr val with
  | some (addr, port) => { cfg with listenAddr := strncpy 99 addr, listenPort := atoi port }
  | none => cfg

/-- `remote = "ip:port"`. -/
def setRemote (cfg : FecrawConfig) (val : List Char) : FecrawConfig :=
  match splitAddr val with
  | some (addr, port) => { cfg with remoteAddr := strncpy 99 addr, remotePort := atoi port }
  | none => cfg

/-- The section `[general]`; `none` is the return value `-1`. -/
def setGeneral (cfg : FecrawConfig) (key val : List Char) : Option FecrawConfig :=
  if key = "mode".toList then
    if val = "server".toList then some { cfg with isServer := 1 }
    else if val = "client".toList then some { cfg with isServer := 0 }
    else none
  else if key = "key".toList then some { cfg with key := strncpy 999 val }
  else some cfg

/-- The section `[network]`. -/
def setNetwork (cfg : FecrawConfig) (key val : List Char) : FecrawConfig :=
  if key = "listen".toList then setListen cfg val
  else if key = "remote".toList then setRemote cfg val
  else if key = "raw_mode".toList then { cfg with rawMode := choose rawModes cfg.rawMode val }
  else if key = "cipher".toList then { cfg with cipherMode := choose ciphers cfg.cipherMode val }
  else if key = "auth".toList then { cfg with authMode := choose auths cfg.authMode val }
  else cfg

/-- The section `[vpn]`. -/
def setVpn (cfg : FecrawConfig) (key val : List Char) : FecrawConfig :=
  if key = "subnet".toList then { cfg with subnet := strncpy 31 val }
  else if key = "tun_dev".toList then { cfg with tunDev := strncpy 31 val }
  else if key = "tun_mtu".toList then { cfg with tunMtu := atoi val }
  else cfg

/-- The section `[fec]`. -/
def setFec (cfg : FecrawConfig) (key val : List Char) : FecrawConfig :=
  if key = "mode".toList then { cfg with fecMode := atoi val }
  else if key = "fec".toList then { cfg with fecStr := strncpy 63 val }
  else if key = "timeout".toList then { cfg with fecTimeout := atoi val }
  else if key = "mtu".toList then { cfg with fecMtu := atoi val }
  else if key = "adaptive".toList then
    { cfg with fecAdaptive := (parseBoolLike val).getD cfg.fecAdaptive }
  else if key = "small_packet_threshold".toList then { cfg with smallPacketThreshold := atoi val }
  else if key = "small_packet_redundancy".toList then
    { cfg with smallPacketRedundancy := atoi val }
  else cfg

/-- One setting. -/
def setKey (cfg : FecrawConfig) (sec key val : List Char) : Option FecrawConfig :=
  if sec = "general".toList then setGeneral cfg key val
  else if sec = "network".toList then some (setNetwork cfg key val)
  else if sec = "vpn".toList then some (setVpn cfg key val)
  else if sec = "fec".toList then some (setFec cfg key val)
  else some cfg

/-- One line, with the section it is in. -/
def parseLine (st : List Char × FecrawConfig) (raw : List Char) :
    Option (List Char × FecrawConfig) :=
  let line := stripInlineComment raw
  if line = [] ∨ line.head? = some '#' then some st
  else if line.head? = some '[' then
    if ']' ∈ line then some (line.tail.takeWhile (· ≠ ']'), st.2) else some st
  else if '=' ∈ line then
    let key := trimWs (line.takeWhile (· ≠ '='))
    let val := stripQuotes (stripInlineComment (line.dropWhile (· ≠ '=')).tail)
    (setKey st.2 st.1 key val).map fun cfg => (st.1, cfg)
  else some st

/-- `parse_toml_config` on the text of the file; `none` is the return value
`-1`. -/
def parseTomlConfig (cfg : FecrawConfig) (text : List Char) : Option FecrawConfig :=
  ((text.splitOn '\n').foldlM parseLine ([], cfg)).map Prod.snd

/-! ## The command line -/

/-- The options that `getopt_long` finds. -/
inductive CliOption where
  /-- The text of the file, if it can be read. -/
  | config (text : Option (List Char))
  /-- Options after which the process does not start: a configuration is
  written, the help is printed or the option is unknown. -/
  | stops
  | server
  | client
  | listen (val : List Char)
  | remote (val : List Char)
  | key (val : List Char)
  | rawMode (val : List Char)
  | cipher (val : List Char)
  | auth (val : List Char)
  | subnet (val : List Char)
  | tunDev (val : List Char)
  | tunMtu (val : List Char)
  | fec (val : List Char)
  | fecTimeout (val : List Char)
  | disableFec
  | adaptiveFec
  | smallPkt (val : List Char)
  /-- Options for settings that are left out. -/
  | other

/-- An option that sets something. -/
def setOption (cfg : FecrawConfig) : CliOption → FecrawConfig
  | .server => { cfg with isServer := 1 }
  | .client => { cfg with isServer := 0 }
  | .listen val => setListen cfg val
  | .remote val => setRemote cfg val
  | .key val => { cfg with key := strncpy 999 val }
  | .rawMode val => { cfg with rawMode := choose rawModes cfg.rawMode val }
  | .cipher val => { cfg with cipherMode := choose ciphers cfg.cipherMode val }
  | .auth val => { cfg with authMode := choose auths cfg.authMode val }
  | .subnet val => { cfg with subnet := strncpy 31 val }
  | .tunDev val => { cfg with tunDev := strncpy 31 val }
  | .tunMtu val => { cfg with tunMtu := atoi val }
  | .fec val => { cfg with fecStr := strncpy 63 val }
  | .fecTimeout val => { cfg with fecTimeout := atoi val }
  | .disableFec => { cfg with disableFec := true }
  | .adaptiveFec => { cfg with fecAdaptive := true }
  | .smallPkt val => { cfg with smallPacketThreshold := atoi val }
  | .config _ | .stops | .other => cfg

/-- `parse_cli`; `none` when it does not return 0.  A configuration file ends
the command line. -/
def parseCli (cfg : FecrawConfig) : List CliOption → Option FecrawConfig
  | [] => if cfg.isServer < 0 then none else some cfg
  | .config text :: _ => text.bind (parseTomlConfig cfg)
  | .stops :: _ => none
  | opt :: rest => parseCli (setOption cfg opt) rest

/-! ## The FEC parameters -/

/-- The FEC parameters that `apply_fec_globals` leaves in `g_fec_par`; `none`
when the process exits. -/
def applyFec (cfg : FecrawConfig) : Option FecParameter :=
  let par :=
    match FecParameter.rsFromStr {} (strncpy 63 cfg.fecStr) with
    | some par => some par
    | none =>
        if cfg.disableFec then some ((FecParameter.rsFromStr {} "1:0".toList).getD {}) else none
  par.map fun par => { par with
    timeout := (cfg.fecTimeout * 1000).bmod (2 ^ 32)
    mtu := cfg.fecMtu
    mode := cfg.fecMode }

/-! ## What an accepted configuration gives -/

section Accepted

variable {cfg cfg' : FecrawConfig}

theorem toInt32_lt (n : Int) : toInt32 n < 2 ^ 31 := by
  unfold toInt32
  have := Int.bmod_lt (x := max (-2 ^ 63) (min n (2 ^ 63 - 1))) (m := 2 ^ 32) (by decide)
  omega

theorem atoi_lt (s : List Char) : atoi s < 2 ^ 31 := by
  unfold atoi
  cases hscan : scanInt s with
  | none => decide
  | some r =>
      unfold scanInt at hscan
      dsimp only at hscan
      generalize List.takeWhile Char.isDigit _ = digits at hscan
      by_cases hdigits : digits = []
      · rw [if_pos hdigits] at hscan
        exact absurd hscan (by simp)
      · rw [if_neg hdigits] at hscan
        obtain rfl := Option.some.inj hscan
        exact toInt32_lt _

/-- The mtu is an `int`. -/
def Ranged (cfg : FecrawConfig) : Prop := cfg.fecMtu < 2 ^ 31

/-- `listen` sets an address and a port. -/
theorem setListen_eq (cfg : FecrawConfig) (val : List Char) :
    ∃ addr port, setListen cfg val = { cfg with listenAddr := addr, listenPort := port } := by
  unfold setListen
  cases splitAddr val with
  | none => exact ⟨cfg.listenAddr, cfg.listenPort, rfl⟩
  | some r => exact ⟨strncpy 99 r.1, atoi r.2, rfl⟩

/-- So does `remote`. -/
theorem setRemote_eq (cfg : FecrawConfig) (val : List Char) :
    ∃ addr port, setRemote cfg val = { cfg with remoteAddr := addr, remotePort := port } := by
  unfold setRemote
  cases splitAddr val with
  | none => exact ⟨cfg.remoteAddr, cfg.remotePort, rfl⟩
  | some r => exact ⟨strncpy 99 r.1, atoi r.2, rfl⟩

theorem ranged_setAddr (h : Ranged cfg) (val : List Char) :
    Ranged (setListen cfg val) ∧ Ranged (setRemote cfg val) := by
  obtain ⟨addr, port, hlisten⟩ := setListen_eq cfg val
  obtain ⟨addr', port', hremote⟩ := setRemote_eq cfg val
  rw [hlisten, hremote]
  exact ⟨h, h⟩

theorem ranged_setFec (h : Ranged cfg) (key val : List Char) : Ranged (setFec cfg key val) := by
  unfold setFec
  split_ifs <;> first | exact h | exact atoi_lt val

theorem ranged_setKey {sec key val : List Char} (h : Ranged cfg)
    (hok : setKey cfg sec key val = some cfg') : Ranged cfg' := by
  unfold setKey at hok
  split at hok
  · unfold setGeneral at hok
    split_ifs at hok <;> obtain rfl := Option.some.inj hok <;> exact h
  split at hok
  · obtain rfl := Option.some.inj hok
    unfold setNetwork
    split_ifs
    · exact (ranged_setAddr h val).1
    · exact (ranged_setAddr h val).2
    all_goals exact h
  split at hok
  · obtain rfl := Option.some.inj hok
    unfold setVpn
    split_ifs <;> exact h
  split at hok
  · obtain rfl := Option.some.inj hok
    exact ranged_setFec h key val
  · obtain rfl := Option.some.inj hok
    exact h

theorem ranged_parseLine {st st' : List Char × FecrawConfig} {line : List Char}
    (h : Ranged st.2) (hok : parseLine st line = some st') : Ranged st'.2 := by
  unfold parseLine at hok
  dsimp only at hok
  split at hok
  · obtain rfl := Option.some.inj hok
    exact h
  split at hok
  · split at hok
    · obtain rfl := Option.some.inj hok
      exact h
    · obtain rfl := Option.some.inj hok
      exact h
  split at hok
  · obtain ⟨cfg, hset, rfl⟩ := Option.map_eq_some_iff.mp hok
    exact ranged_setKey h hset
  · obtain rfl := Option.some.inj hok
    exact h

theorem ranged_lines : ∀ {lines : List (List Char)} {st st' : List Char × FecrawConfig},
    Ranged st.2 → lines.foldlM parseLine st = some st' → Ranged st'.2 := by
  intro lines
  induction lines with
  | nil =>
      intro st st' h hok
      obtain rfl := Option.some.inj hok
      exact h
  | cons line lines ih =>
      intro st st' h hok
      rw [List.foldlM_cons] at hok
      obtain ⟨st₁, hline, hrest⟩ := Option.bind_eq_some_iff.mp hok
      exact ih (ranged_parseLine h hline) hrest

theorem ranged_parseTomlConfig {text : List Char} (h : Ranged cfg)
    (hok : parseTomlConfig cfg text = some cfg') : Ranged cfg' := by
  obtain ⟨st, hlines, rfl⟩ := Option.map_eq_some_iff.mp hok
  exact ranged_lines h hlines

theorem ranged_setOption (h : Ranged cfg) (opt : CliOption) : Ranged (setOption cfg opt) := by
  cases opt with
  | listen val => exact (ranged_setAddr h val).1
  | remote val => exact (ranged_setAddr h val).2
  | _ => exact h

/-- The integers of an accepted configuration are `int`s. -/
theorem ranged_parseCli : ∀ {opts : List CliOption} {cfg cfg' : FecrawConfig}, Ranged cfg →
    parseCli cfg opts = some cfg' → Ranged cfg' := by
  intro opts
  induction opts with
  | nil =>
      intro cfg cfg' h hok
      rw [parseCli] at hok
      split at hok
      · exact absurd hok (by simp)
      · obtain rfl := Option.some.inj hok
        exact h
  | cons opt rest ih =>
      intro cfg cfg' h hok
      cases opt with
      | config text =>
          obtain ⟨text, -, htext⟩ := Option.bind_eq_some_iff.mp hok
          exact ranged_parseTomlConfig h htext
      | stops => exact absurd hok (by simp [parseCli])
      | _ => exact ih (ranged_setOption h _) hok

/-- The parameters have the table of an accepted string and the configuration's
own mode and mtu. -/
theorem applyFec_spec {g : FecParameter} (hok : applyFec cfg = some g) :
    ∃ s par, FecParameter.rsFromStr {} s = some par ∧ g = { par with
      timeout := (cfg.fecTimeout * 1000).bmod (2 ^ 32)
      mtu := cfg.fecMtu
      mode := cfg.fecMode } := by
  obtain ⟨par, hpar, rfl⟩ := Option.map_eq_some_iff.mp hok
  split at hpar
  · next par' hstr =>
      obtain rfl := Option.some.inj hpar
      exact ⟨_, _, hstr, rfl⟩
  · split at hpar
    · obtain rfl := Option.some.inj hpar
      have hone := @rsFromStr_printPair {} 1 0 (by decide) (by decide) (by decide)
      have htext : "1:0".toList = printPair 1 0 := by decide
      rw [htext, hone]
      exact ⟨_, _, hone, rfl⟩
    · exact absurd hpar (by simp)

end Accepted

end Fecraw.Ports.Config
