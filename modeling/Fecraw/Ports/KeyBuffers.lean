import Fecraw.Verified.CString
import Fecraw.Ports.CommandLine
import Fecraw.Ports.EncryptPeers

/-!
# The way of the key

The key is copied from the command line or the file into `cfg.key`, from there
into `key_string` of the FEC library and into `rcfg.key`, and from there into
`key_string` of the raw transport, where `my_init_keys` joins it with `key1` in
`tmp`.  Each of these is an array of 1000 octets.

`g_cfg` and the two `key_string` are global objects, so their octets are 0
except for the texts that they are initialised with; `rcfg` is cleared.  That
`apply_fec_globals` may exit before it comes to the key is left out.

## Main results

* `copyKeys_spec`: after the copies all arrays hold the given key, cut.
* `joinKey_spec`, `joinKey_overrun`: `tmp` takes a key of up to 995 octets.
* `keyHandled_iff`: the key is handled well exactly if it has at most 995 octets.
-/

namespace Fecraw.Ports.Config

open Fecraw.Verified Fecraw.Verified.Checked

/-! ## The given keys -/

/-- The value that `key` in `[general]` gives. -/
def keyOfKey (sec key val : List Char) : Option (List Char) :=
  if sec = TextKey.key.sectionName ∧ key = TextKey.key.name then some val else none

/-- The value that `--key` gives. -/
def keyOfOption : CliOption → Option (List Char)
  | .key val => some val
  | _ => none

theorem key_setOption (cfg : FecrawConfig) (opt : CliOption) :
    (setOption cfg opt).key = ((keyOfOption opt).map (strncpy 999)).getD cfg.key := by
  cases opt with
  | listen val =>
      obtain ⟨addr, port, heq⟩ := setListen_eq cfg val
      show (setListen cfg val).key = cfg.key
      rw [heq]
  | remote val =>
      obtain ⟨addr, port, heq⟩ := setRemote_eq cfg val
      show (setRemote cfg val).key = cfg.key
      rw [heq]
  | _ => rfl

theorem key_setKey (cfg : FecrawConfig) (sec key val : List Char) (cfg' : FecrawConfig)
    (hok : setKey cfg sec key val = some cfg') :
    cfg'.key = ((keyOfKey sec key val).map (strncpy 999)).getD cfg.key := by
  unfold keyOfKey
  split
  next hboth =>
    obtain ⟨rfl, rfl⟩ := hboth
    obtain ⟨cfg₁, hset, hget⟩ := setKey_name .key cfg val
    obtain rfl := Option.some.inj (hset.symm.trans hok)
    exact hget
  next hother => exact @setKey_frame .key cfg cfg' sec key val hother hok

/-- `cfg.key`. -/
def keySetting : Setting (List Char) (List Char) where
  get := FecrawConfig.key
  put := strncpy 999
  ofOption := keyOfOption
  ofKey := keyOfKey
  get_setOption := key_setOption
  get_setKey := key_setKey

/-- The octets of a string in an argument or a value, up to the first NUL. -/
def cStr (val : List Char) : List Char := val.takeWhile (· ≠ '\x00')

/-! ## The copies -/

/-- The arrays for the key. -/
abbrev KeyBuffer := Buffer Char 1000

/-- An array of a global object. -/
def KeyBuffer.static (text : List Char) (h : text.length ≤ 1000) : KeyBuffer := .init '\x00' text h

/-- `strncpy(buf, src, sizeof(buf) - 1)`. -/
def KeyBuffer.copy (buf : KeyBuffer) (src : List Char) : Checked KeyBuffer :=
  buf.strncpy '\x00' 0 999 src

/-- `cfg.key` after `parse_cli`, from the values given one after the other. -/
def parsedKey (given : List (List Char)) : Checked KeyBuffer :=
  given.foldlM (fun buf val => buf.copy (val ++ ['\x00'])) (.static [] (by decide))

/-- The key in `apply_fec_globals`. -/
def applyFecGlobalsKey (cfgKey keyString : KeyBuffer) : Checked KeyBuffer := do
  let len ← strlen '\x00' cfgKey.octets
  if 0 < len then
    let keyString ← keyString.copy cfgKey.octets
    keyString.write 999 '\x00'
  else return keyString

/-- The key in `fill_raw_config`. -/
def fillRawConfigKey (cfgKey : KeyBuffer) : Checked KeyBuffer :=
  KeyBuffer.copy (.static [] (by decide)) cfgKey.octets

/-- The key in `raw_api_init`. -/
def rawApiInitKey (rcfgKey keyString : KeyBuffer) : Checked KeyBuffer :=
  if rcfgKey.octets.head? ≠ some '\x00' then keyString.copy rcfgKey.octets else return keyString

/-- The arrays after the copies. -/
structure KeyBuffers where
  cfgKey : KeyBuffer
  fecKeyString : KeyBuffer
  rcfgKey : KeyBuffer
  rawKeyString : KeyBuffer

/-- The copies of a process, up to `raw_api_setup`. -/
def copyKeys (given : List (List Char)) : Checked KeyBuffers := do
  let cfgKey ← parsedKey given
  let fecKeyString ← applyFecGlobalsKey cfgKey (.static [] (by decide))
  let rcfgKey ← fillRawConfigKey cfgKey
  let rawKeyString ← rawApiInitKey rcfgKey (.static "secret key".toList (by decide))
  return { cfgKey, fecKeyString, rcfgKey, rawKeyString }

/-- What `my_init_keys` does with `tmp`; the result is `tmp` when it is hashed. -/
def joinKey (userPasswd : KeyBuffer) : Checked KeyBuffer := do
  let _len ← strlen '\x00' userPasswd.octets
  let tmp ← Buffer.strcat '\x00' (KeyBuffer.static [] (by decide)) userPasswd.octets
  tmp.strcat '\x00' ("key1".toList ++ ['\x00'])

/-! ## What the arrays hold -/

section copies

variable {buf keyString : KeyBuffer} {src s old key : List Char}

/-- An array holds a string, and its last octet is a NUL, which no copy touches. -/
def KeyBuffer.Has (buf : KeyBuffer) (s : List Char) : Prop :=
  Holds '\x00' buf.octets s ∧ buf.octets[999]? = some '\x00'

theorem KeyBuffer.Has.nul_mem (h : buf.Has s) : '\x00' ∈ buf.octets := List.mem_of_getElem? h.2

theorem has_static {text : List Char} (hnul : '\x00' ∉ text) (hroom : text.length < 1000) :
    (KeyBuffer.static text hroom.le).Has text :=
  ⟨Buffer.holds_init hnul hroom, Buffer.getElem?_init (by omega) (by decide)⟩

theorem copy_spec (hbuf : buf.Has old) (hsrc : Holds '\x00' src s) :
    ∃ buf', buf.copy src = .ok buf' ∧ buf'.Has (s.take 999) :=
  Buffer.strncpy_spec hsrc hbuf.2

theorem parsed_spec (given : List (List Char)) (hbuf : buf.Has old) :
    ∃ buf', given.foldlM (fun buf val => KeyBuffer.copy buf (val ++ ['\x00'])) buf = .ok buf' ∧
      buf'.Has (keySetting.last old given) := by
  induction given generalizing buf old with
  | nil => exact ⟨buf, rfl, hbuf⟩
  | cons val given ih =>
      obtain ⟨buf₁, hcopy, hbuf₁⟩ := copy_spec hbuf (holds_append_nul '\x00' val [])
      obtain ⟨buf₂, hrest, hbuf₂⟩ := ih hbuf₁
      refine ⟨buf₂, ?_, ?_⟩
      · rw [List.foldlM_cons, hcopy]
        exact hrest
      · exact (keySetting.last_toList_append old (some val) given) ▸ hbuf₂

/-- A string that fits is copied whole. -/
theorem copy_of_has (hbuf : buf.Has old) (hsrc : keyString.Has key) :
    ∃ buf', buf.copy keyString.octets = .ok buf' ∧ buf'.Has key := by
  have hlen := hsrc.1.lt_length
  rw [keyString.length_octets] at hlen
  have htake : key.take 999 = key := List.take_of_length_le (by omega)
  exact htake ▸ copy_spec hbuf hsrc.1

theorem applyFecGlobalsKey_spec (hcfg : buf.Has key) (hne : key ≠ [])
    (hstring : keyString.Has old) :
    ∃ buf', applyFecGlobalsKey buf keyString = .ok buf' ∧ buf'.Has key := by
  obtain ⟨buf₁, hcopy, hbuf₁⟩ := copy_of_has hstring hcfg
  refine ⟨buf₁, ?_, hbuf₁⟩
  unfold applyFecGlobalsKey
  rw [strlen_eq hcfg.1, ok_bind, if_pos (List.length_pos_iff.mpr hne), hcopy]
  exact Buffer.write_self hbuf₁.2

theorem rawApiInitKey_spec (hrcfg : buf.Has key) (hne : key ≠ []) (hstring : keyString.Has old) :
    ∃ buf', rawApiInitKey buf keyString = .ok buf' ∧ buf'.Has key := by
  obtain ⟨buf₁, hcopy, hbuf₁⟩ := copy_of_has hstring hrcfg
  refine ⟨buf₁, ?_, hbuf₁⟩
  have hhead : buf.octets.head? ≠ some '\x00' := by
    obtain ⟨⟨hnul, rest, hoctets⟩, -⟩ := hrcfg
    rw [hoctets, List.head?_append_of_ne_nil _ hne]
    exact fun h => hnul (List.mem_of_mem_head? h)
  unfold rawApiInitKey
  rw [if_pos hhead, hcopy]

/-- After the copies all arrays hold the key given last, cut. -/
theorem copyKeys_spec {given : List (List Char)} (hkey : keySetting.last [] given = key)
    (hne : key ≠ []) :
    ∃ keys, copyKeys given = .ok keys ∧ keys.cfgKey.Has key ∧ keys.fecKeyString.Has key ∧
      keys.rcfgKey.Has key ∧ keys.rawKeyString.Has key := by
  have hempty : (KeyBuffer.static [] (by decide)).Has [] := has_static (by simp) (by decide)
  have hsecret : (KeyBuffer.static "secret key".toList (by decide)).Has "secret key".toList :=
    has_static (by decide) (by decide)
  obtain ⟨cfgKey, hparsed, hcfg⟩ := parsed_spec given hempty
  rw [hkey] at hcfg
  obtain ⟨fecKeyString, happly, hfec⟩ := applyFecGlobalsKey_spec hcfg hne hempty
  obtain ⟨rcfgKey, hfill, hrcfg⟩ := copy_of_has hempty hcfg
  obtain ⟨rawKeyString, hinit, hraw⟩ := rawApiInitKey_spec hrcfg hne hsecret
  refine ⟨⟨cfgKey, fecKeyString, rcfgKey, rawKeyString⟩, ?_, hcfg, hfec, hrcfg, hraw⟩
  unfold copyKeys parsedKey fillRawConfigKey
  rw [hparsed, ok_bind, happly, ok_bind, hfill, ok_bind, hinit]
  rfl

end copies

/-! ## `tmp` -/

section join

variable {userPasswd : KeyBuffer} {s : List Char}

theorem holds_key1 : Holds '\x00' ("key1".toList ++ ['\x00']) "key1".toList := ⟨by decide, [], rfl⟩

/-- The password always fits `tmp`, and `key1` comes behind it. -/
theorem joinKey_eq (hpasswd : Holds '\x00' userPasswd.octets s) :
    ∃ tmp : KeyBuffer, Holds '\x00' tmp.octets s ∧
      joinKey userPasswd = tmp.strcat '\x00' ("key1".toList ++ ['\x00']) := by
  have hlen := hpasswd.lt_length
  rw [userPasswd.length_octets] at hlen
  have hempty : (KeyBuffer.static [] (by decide)).Has [] := has_static (by simp) (by decide)
  obtain ⟨tmp, hfirst, htmp⟩ := Buffer.strcat_spec hempty.1 hpasswd (by simpa using hlen)
  refine ⟨tmp, htmp, ?_⟩
  unfold joinKey
  rw [strlen_eq hpasswd, ok_bind, hfirst, ok_bind]

/-- The password and `key1` are joined if they fit. -/
theorem joinKey_spec (hpasswd : Holds '\x00' userPasswd.octets s) (hfits : s.length ≤ 995) :
    ∃ tmp, joinKey userPasswd = .ok tmp ∧ Holds '\x00' tmp.octets (s ++ "key1".toList) := by
  obtain ⟨tmp, htmp, heq⟩ := joinKey_eq hpasswd
  rw [heq]
  exact Buffer.strcat_spec htmp holds_key1 (by simp; omega)

/-- With a longer password, `key1` is written past the end of `tmp`. -/
theorem joinKey_overrun (hpasswd : Holds '\x00' userPasswd.octets s) (hlong : 995 < s.length) :
    joinKey userPasswd = .error .outOfBounds := by
  obtain ⟨tmp, htmp, heq⟩ := joinKey_eq hpasswd
  rw [heq]
  exact Buffer.strcat_overrun htmp holds_key1 (by simp; omega)

theorem exists_joinKey (hpasswd : Holds '\x00' userPasswd.octets s) :
    (∃ tmp, joinKey userPasswd = .ok tmp) ↔ s.length ≤ 995 := by
  constructor
  · rintro ⟨tmp, hjoin⟩
    by_contra hlong
    rw [joinKey_overrun hpasswd (by omega)] at hjoin
    cases hjoin
  · intro hfits
    obtain ⟨tmp, hjoin, -⟩ := joinKey_spec hpasswd hfits
    exact ⟨tmp, hjoin⟩

/-- `tmp` is overrun exactly when the keys of the raw transport are not set up. -/
theorem exists_joinKey_iff_myInitKeys (hpasswd : Holds '\x00' userPasswd.octets s)
    (P : Encrypt.Primitives) (isClient : Bool) (modes : Encrypt.CipherMode × Encrypt.AuthMode) :
    (∃ tmp, joinKey userPasswd = .ok tmp) ↔
      ∃ p, Encrypt.myInitKeys P (Encrypt.ascii (String.ofList s)) isClient modes = .ok p := by
  rw [exists_joinKey hpasswd, Encrypt.exists_myInitKeys]
  simp [Encrypt.ascii]

end join

/-! ## The whole way -/

/-- A key is handled within bounds and the same on both sides: after the copies each
array has a NUL, `cfg.key` is the one of the configuration, both libraries hold the
key, cut, and `tmp` is not overrun. -/
def KeyHandled (opts : List CliOption) (cfg : FecrawConfig) (key : List Char) : Prop :=
  ∃ keys, copyKeys (keySetting.given opts) = .ok keys ∧
    (∀ buf ∈ [keys.cfgKey, keys.fecKeyString, keys.rcfgKey, keys.rawKeyString],
      '\x00' ∈ buf.octets) ∧
    Holds '\x00' keys.cfgKey.octets cfg.key ∧
    Holds '\x00' keys.fecKeyString.octets (key.take 999) ∧
    Holds '\x00' keys.rawKeyString.octets (key.take 999) ∧
    ∃ tmp, joinKey keys.rawKeyString = .ok tmp

section whole

variable {start : Start} {cfg : FecrawConfig} {val : List Char}

/-- The configuration has the key given last, cut. -/
theorem key_of_parse (hok : start.parse = some cfg)
    (hgiven : (keySetting.given start.options).getLast? = some val) :
    cfg.key = (cStr val).take 999 := by
  have hlast : cfg.key = keySetting.last [] (keySetting.given start.options) :=
    keySetting.get_parseCli hok
  unfold Setting.last at hlast
  rw [hgiven] at hlast
  exact hlast

/-- The copies of an accepted key. -/
theorem copyKeys_of_parse (hok : start.parse = some cfg)
    (hgiven : (keySetting.given start.options).getLast? = some val) (hne : cStr val ≠ []) :
    ∃ keys, copyKeys (keySetting.given start.options) = .ok keys ∧ keys.cfgKey.Has cfg.key ∧
      keys.fecKeyString.Has cfg.key ∧ keys.rcfgKey.Has cfg.key ∧ keys.rawKeyString.Has cfg.key := by
  have hkey := key_of_parse hok hgiven
  have hlast : cfg.key = keySetting.last [] (keySetting.given start.options) :=
    keySetting.get_parseCli hok
  refine copyKeys_spec hlast.symm ?_
  rw [hkey]
  exact fun hnil => hne ((List.take_eq_nil_iff.mp hnil).resolve_left (by decide))

/-- A longer key overruns `tmp`. -/
theorem not_keyHandled {opts : List CliOption} {key : List Char} (hlong : 995 < key.length) :
    ¬ KeyHandled opts cfg key := by
  rintro ⟨keys, -, -, -, -, hraw, htmp⟩
  have hfits := (exists_joinKey hraw).mp htmp
  rw [List.length_take] at hfits
  omega

/-- A key from the command line or the file is handled well exactly if it has at most
995 octets. -/
theorem keyHandled_iff (hok : start.parse = some cfg)
    (hgiven : (keySetting.given start.options).getLast? = some val) (hne : cStr val ≠ []) :
    KeyHandled start.options cfg (cStr val) ↔ (cStr val).length ≤ 995 := by
  constructor
  · intro hhandled
    by_contra hlong
    exact not_keyHandled (by omega) hhandled
  · intro hfits
    obtain ⟨keys, hcopy, hcfg, hfec, hrcfg, hraw⟩ := copyKeys_of_parse hok hgiven hne
    have hkey := key_of_parse hok hgiven
    refine ⟨keys, hcopy, ?_, hcfg.1, hkey ▸ hfec.1, hkey ▸ hraw.1, ?_⟩
    · simp only [List.forall_mem_cons, List.not_mem_nil, false_implies, implies_true, and_true]
      exact ⟨hcfg.nul_mem, hfec.nul_mem, hrcfg.nul_mem, hraw.nul_mem⟩
    · rw [exists_joinKey hraw.1, hkey, List.length_take]
      omega

/-- `fecraw -c -k KEY`. -/
def keyOnly (key : List Char) : Start where
  argv := ["fecraw".toList, "-c".toList, "-k".toList, key]
  files := fun _ => none

theorem keyHandled_short : ∃ cfg, (keyOnly "passwd".toList).parse = some cfg ∧
    KeyHandled (keyOnly "passwd".toList).options cfg (cStr "passwd".toList) :=
  ⟨_, rfl, (keyHandled_iff rfl rfl (by decide)).mpr (by decide)⟩

/-- The key `AA...A` of 996 octets is accepted, and `key1` is written past `tmp`. -/
theorem key_overruns_tmp : ∃ cfg, (keyOnly (List.replicate 996 'A')).parse = some cfg ∧
    (keySetting.given (keyOnly (List.replicate 996 'A')).options).getLast? =
      some (List.replicate 996 'A') ∧
    (∃ keys, copyKeys (keySetting.given (keyOnly (List.replicate 996 'A')).options) = .ok keys ∧
      joinKey keys.rawKeyString = .error .outOfBounds) ∧
    ¬ KeyHandled (keyOnly (List.replicate 996 'A')).options cfg
      (cStr (List.replicate 996 'A')) := by
  have hstr : cStr (List.replicate 996 'A') = List.replicate 996 'A' := by
    unfold cStr
    rw [List.takeWhile_replicate]
    exact if_pos (by decide)
  have hlen : (cStr (List.replicate 996 'A')).length = 996 := by
    rw [hstr, List.length_replicate]
  have hne : cStr (List.replicate 996 'A') ≠ [] := List.length_pos_iff.mp (by omega)
  obtain ⟨cfg, hok⟩ : ∃ cfg, (keyOnly (List.replicate 996 'A')).parse = some cfg := ⟨_, rfl⟩
  have hgiven : (keySetting.given (keyOnly (List.replicate 996 'A')).options).getLast? =
      some (List.replicate 996 'A') := rfl
  refine ⟨cfg, hok, hgiven, ?_, not_keyHandled (by omega)⟩
  obtain ⟨keys, hcopy, -, -, -, hraw⟩ := copyKeys_of_parse hok hgiven hne
  refine ⟨keys, hcopy, joinKey_overrun hraw.1 ?_⟩
  rw [key_of_parse hok hgiven, List.length_take]
  omega

end whole

end Fecraw.Ports.Config
