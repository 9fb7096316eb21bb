import MalakethTurbo.Data.Repetition
import MalakethTurbo.Logic.Action
import MalakethTurbo.Types.ValidatorSet
import Mathlib.Logic.Function.Basic

/-!
# The files of a new node

A node has three files: its configuration, its private key and a genesis.  It can validate
its own chain if the genesis lists its key (`SelfValidating`).

`testnet` generates the keys once, and writes the files of all nodes from them
(`testnet_selfValidating`).  `init` leaves alone what is there, unless it is told to
overwrite, and generates one key for the key file and another one for the genesis.  So the
node is left out of its own chain whenever one of the two is written, unless the keys
happen to be the same (`init_selfValidating_iff`).
-/

namespace MalakethTurbo
namespace Cli

open MalakethTurbo.Action (read change lift)

/-! ## Files -/

/-- The files in the directory of a node. -/
inductive HomeFile where
  | config
  | privValidatorKey
  | genesis
  deriving DecidableEq

/-- The errors of the commands that write files. -/
inductive Error (π : Type) where
  | parentDir : π → Error π
  | openFile : π → Error π
  | writeFile : π → Error π
  | toJSON : String → Error π
  deriving DecidableEq

/-- How saving a file fails.  A file that has been opened is truncated, and keeps what has
been written to it. -/
inductive SaveFault (τ : Type) where
  | parentDir
  | openFile
  | writeFile (written : τ)

/-- How the files are written and read: what is written is read back. -/
class FileFormat where
  Text : Type
  Config : Type
  configToToml : Config → Except String Text
  privateKeyToJson : PrivateKey → Except String Text
  privateKeyFromJson : Text → Option PrivateKey
  genesisToJson : Genesis → Except String Text
  genesisFromJson : Text → Option Genesis
  privateKeyFromJson_toJson : ∀ {key text},
    privateKeyToJson key = .ok text → privateKeyFromJson text = some key
  genesisFromJson_toJson : ∀ {genesis text},
    genesisToJson genesis = .ok text → genesisFromJson text = some genesis

/-- Where keys come from, and what becomes of a file that is saved. -/
structure Surroundings (π τ : Type) where
  /-- The keys that are generated from `OsRng`, one after the other. -/
  osKey : Nat → PrivateKey
  /-- The keys that are generated from a generator with the seed `0x42`. -/
  seededKey : Nat → PrivateKey
  fault : π → Option (SaveFault τ)

/-- The files, and how many keys have been generated from `OsRng`. -/
structure Machine (π τ : Type) where
  disk : π → Option τ
  drawn : Nat

section Saving

variable [FileFormat] {π : Type} [DecidableEq π]

/-- What a command does with the files, its log apart. -/
abbrev Command (π : Type) := Action (Machine π FileFormat.Text) Empty (Stop (Error π))

/-- Files with another text in one of them. -/
def Machine.write (s : Machine π FileFormat.Text) (file : π) (text : FileFormat.Text) :
    Machine π FileFormat.Text :=
  { s with disk := Function.update s.disk file (some text) }

/-- `save`. -/
def save (env : Surroundings π FileFormat.Text) (file : π) (data : FileFormat.Text) :
    Command π Unit :=
  match env.fault file with
  | none => change fun s => s.write file data
  | some .parentDir => lift (.error (.err (.parentDir file)))
  | some .openFile => lift (.error (.err (.openFile file)))
  | some (.writeFile written) => do
      change fun s => s.write file written
      lift (.error (.err (.writeFile file)))

/-- Saves what a value is written as, if it can be. -/
def saveAs (env : Surroundings π FileFormat.Text) (file : π)
    (data : Except String FileFormat.Text) : Command π Unit :=
  match data with
  | .ok data => save env file data
  | .error e => lift (.error (.err (.toJSON e)))

/-- `save_config`. -/
def saveConfig (env : Surroundings π FileFormat.Text) (file : π)
    (config : FileFormat.Config) : Command π Unit :=
  saveAs env file (FileFormat.configToToml config)

/-- `save_priv_validator_key`. -/
def savePrivValidatorKey (env : Surroundings π FileFormat.Text) (file : π)
    (privValidatorKey : PrivateKey) : Command π Unit :=
  saveAs env file (FileFormat.privateKeyToJson privValidatorKey)

/-- `save_genesis`. -/
def saveGenesis (env : Surroundings π FileFormat.Text) (file : π) (genesis : Genesis) :
    Command π Unit :=
  saveAs env file (FileFormat.genesisToJson genesis)

/-- A file that exists is skipped, if it is not to be overwritten. -/
def unlessKept (file : π) (overwrite : Bool) (x : Command π Unit) : Command π Unit := do
  let s ← read
  if (s.disk file).isSome && !overwrite then pure () else x

/-! ## What is saved -/

variable {env : Surroundings π FileFormat.Text}

theorem write_disk (s : Machine π FileFormat.Text) (file file' : π) (text : FileFormat.Text) :
    (s.write file text).disk file' = if file' = file then some text else s.disk file' :=
  Function.update_apply s.disk file (some text) file'

theorem saveAs_of_ok {file : π} {data : Except String FileFormat.Text}
    {s : Machine π FileFormat.Text} (h : (saveAs env file data s).result = .ok ()) :
    ∃ text, data = .ok text ∧ saveAs env file data s = ⟨.ok (), s.write file text, []⟩ := by
  cases data with
  | error e => cases h
  | ok text =>
      refine ⟨text, rfl, ?_⟩
      rw [saveAs, save] at h ⊢
      cases hfault : env.fault file with
      | none => rfl
      | some fault =>
          rw [hfault] at h
          cases fault with
          | parentDir => cases h
          | openFile => cases h
          | writeFile written => cases h

/-- The file is there, and it is not to be overwritten. -/
def Kept (overwrite : Bool) (s : Machine π FileFormat.Text) (file : π) : Prop :=
  (s.disk file).isSome ∧ overwrite = false

instance (overwrite : Bool) (s : Machine π FileFormat.Text) (file : π) :
    Decidable (Kept overwrite s file) :=
  inferInstanceAs (Decidable (_ ∧ _))

omit [DecidableEq π] in
theorem unlessKept_run (file : π) (overwrite : Bool) (x : Command π Unit)
    (s : Machine π FileFormat.Text) :
    unlessKept file overwrite x s = if Kept overwrite s file then ⟨.ok (), s, []⟩ else x s := by
  rw [unlessKept, Action.read_bind]
  by_cases hkept : Kept overwrite s file
  · rw [if_pos hkept, if_pos (by simp [hkept.1, hkept.2])]
    rfl
  · rw [if_neg hkept, if_neg]
    simpa [Kept] using hkept

end Saving

section Commands

variable [Crypto] [FileFormat] {π : Type}

/-! ## Keys and the genesis -/

def MIN_VOTING_POWER : UInt64 := 1

/-- `generate_private_keys`. -/
def generatePrivateKeys (env : Surroundings π FileFormat.Text) (size : Nat) (deterministic : Bool) :
    Command π (List PrivateKey) :=
  if deterministic then pure ((List.range size).map env.seededKey)
  else do
    let s ← read
    change fun s => { s with drawn := s.drawn + size }
    pure ((List.range size).map fun i => env.osKey (s.drawn + i))

/-- `App::make_genesis`. -/
def makeGenesis {ε : Type} (validators : List (PublicKey × UInt64)) : Call ε Genesis := do
  let validatorSet ← ValidatorSet.new (validators.map fun v => Validator.new v.1 v.2)
  return ⟨validatorSet⟩

/-- `generate_genesis`.  A voting power is drawn from the range from `MIN_VOTING_POWER` to
`MAX_VOTING_POWER`, which are the same. -/
def generateGenesis {ε : Type} (pks : List PublicKey) : Call ε Genesis :=
  makeGenesis (pks.map fun pk => (pk, MIN_VOTING_POWER))

/-- `App::make_private_key_file`. -/
def makePrivateKeyFile (privateKey : PrivateKey) : PrivateKey := privateKey

/-! ## The commands -/

/-- `init`, its second part: the private key. -/
def initPrivValidatorKey (env : Surroundings HomeFile FileFormat.Text) (overwrite : Bool) :
    Command HomeFile Unit :=
  unlessKept .privValidatorKey overwrite do
    let privateKeys ← generatePrivateKeys env 1 false
    let privateKey ← lift (unwrap privateKeys[0]?)
    savePrivValidatorKey env .privValidatorKey (makePrivateKeyFile privateKey)

/-- Its third part: the genesis. -/
def initGenesis (env : Surroundings HomeFile FileFormat.Text) (overwrite : Bool) :
    Command HomeFile Unit :=
  unlessKept .genesis overwrite do
    let privateKeys ← generatePrivateKeys env 1 false
    let publicKeys := privateKeys.map Crypto.publicKey
    let genesis ← lift (generateGenesis publicKeys)
    saveGenesis env .genesis genesis

/-- `init`. -/
def init (env : Surroundings HomeFile FileFormat.Text) (config : FileFormat.Config)
    (overwrite : Bool) : Command HomeFile Unit := do
  unlessKept .config overwrite (saveConfig env .config config)
  initPrivValidatorKey env overwrite
  initGenesis env overwrite

/-- `testnet`, its loop over the private keys: the files of the nodes from a number on. -/
def testnetNodes (env : Surroundings (Nat × HomeFile) FileFormat.Text)
    (config : Nat → FileFormat.Config) (genesis : Genesis) :
    Nat → List PrivateKey → Command (Nat × HomeFile) Unit
  | _, [] => pure ()
  | i, privateKey :: privateKeys => do
      saveConfig env (i, .config) (config i)
      savePrivValidatorKey env (i, .privValidatorKey) (makePrivateKeyFile privateKey)
      saveGenesis env (i, .genesis) genesis
      testnetNodes env config genesis (i + 1) privateKeys

/-- `testnet`. -/
def testnet (env : Surroundings (Nat × HomeFile) FileFormat.Text) (nodes : Nat)
    (config : Nat → FileFormat.Config) (deterministic : Bool) :
    Command (Nat × HomeFile) Unit := do
  let privateKeys ← generatePrivateKeys env nodes deterministic
  let publicKeys := privateKeys.map Crypto.publicKey
  let genesis ← lift (generateGenesis publicKeys)
  testnetNodes env config genesis 0 privateKeys

/-! ## Validating one's own chain -/

/-- The private key in the key file. -/
def storedKey (disk : HomeFile → Option FileFormat.Text) : Option PrivateKey :=
  (disk .privValidatorKey).bind FileFormat.privateKeyFromJson

/-- The genesis in the genesis file. -/
def storedGenesis (disk : HomeFile → Option FileFormat.Text) : Option Genesis :=
  (disk .genesis).bind FileFormat.genesisFromJson

/-- The validator of a key is in the set of a genesis. -/
def Lists (genesis : Genesis) (key : PrivateKey) : Prop :=
  Crypto.publicKey key ∈ genesis.validatorSet.validators.map Validator.publicKey

/-- The genesis of a node lists its key. -/
def SelfValidating (disk : HomeFile → Option FileFormat.Text) : Prop :=
  ∃ key genesis, storedKey disk = some key ∧ storedGenesis disk = some genesis ∧
    Lists genesis key

section SelfValidating

variable {disk disk' : HomeFile → Option FileFormat.Text} {key : PrivateKey} {genesis : Genesis}

theorem selfValidating_congr (hkey : storedKey disk = storedKey disk')
    (hgenesis : storedGenesis disk = storedGenesis disk') :
    SelfValidating disk ↔ SelfValidating disk' := by
  rw [SelfValidating, SelfValidating, hkey, hgenesis]

theorem selfValidating_iff_of_key (h : storedKey disk = some key) :
    SelfValidating disk ↔ ∃ genesis, storedGenesis disk = some genesis ∧ Lists genesis key := by
  constructor
  · rintro ⟨key', genesis, hkey, hgenesis, hlists⟩
    obtain rfl := Option.some.inj (h.symm.trans hkey)
    exact ⟨genesis, hgenesis, hlists⟩
  · rintro ⟨genesis, hgenesis, hlists⟩
    exact ⟨key, genesis, h, hgenesis, hlists⟩

theorem selfValidating_iff_of_genesis (h : storedGenesis disk = some genesis) :
    SelfValidating disk ↔ ∃ key, storedKey disk = some key ∧ Lists genesis key := by
  constructor
  · rintro ⟨key, genesis', hkey, hgenesis, hlists⟩
    obtain rfl := Option.some.inj (h.symm.trans hgenesis)
    exact ⟨key, hkey, hlists⟩
  · rintro ⟨key, hkey, hlists⟩
    exact ⟨key, genesis, hkey, h, hlists⟩

end SelfValidating

/-- The files that are there before agree: if there is a key and a genesis, the genesis lists
the key. -/
def Consistent (disk : HomeFile → Option FileFormat.Text) : Prop :=
  (disk .privValidatorKey).isSome → (disk .genesis).isSome → SelfValidating disk

omit [FileFormat] in
/-- A genesis that is generated lists the keys it is generated from. -/
theorem lists_iff_of_generateGenesis {ε : Type} {pks : List PublicKey} {genesis : Genesis}
    (h : generateGenesis pks = (.ok genesis : Call ε Genesis)) (key : PrivateKey) :
    Lists genesis key ↔ Crypto.publicKey key ∈ pks := by
  obtain ⟨validatorSet, hnew, hgenesis⟩ := call_bind_eq_ok.mp h
  obtain ⟨⟨⟩, -, hset⟩ := call_bind_eq_ok.mp hnew
  rw [← Except.ok.inj hgenesis, ← Except.ok.inj hset, Lists, List.map_map]
  simp only [List.mem_map, ValidatorSet.sortValidators, mem_destutter_ne]
  constructor
  · rintro ⟨v, ⟨pk, hpk, rfl⟩, hkey⟩
    rw [← hkey]
    exact hpk
  · intro hpk
    exact ⟨_, ⟨_, hpk, rfl⟩, rfl⟩

section Init

variable {env : Surroundings HomeFile FileFormat.Text} {config : FileFormat.Config}
  {overwrite : Bool} {s : Machine HomeFile FileFormat.Text}

omit [Crypto] in
/-- The configuration has no part in it. -/
theorem saveConfig_of_ok
    (h : (unlessKept .config overwrite (saveConfig env .config config) s).result = .ok ()) :
    ∃ s', unlessKept .config overwrite (saveConfig env .config config) s = ⟨.ok (), s', []⟩ ∧
      s'.drawn = s.drawn ∧ ∀ file, file ≠ .config → s'.disk file = s.disk file := by
  rw [unlessKept_run] at h ⊢
  by_cases hkept : Kept overwrite s .config
  · rw [if_pos hkept]
    exact ⟨s, rfl, rfl, fun _ _ => rfl⟩
  · rw [if_neg hkept] at h ⊢
    obtain ⟨text, -, hrun⟩ := saveAs_of_ok h
    refine ⟨s.write .config text, hrun, rfl, fun file hfile => ?_⟩
    rw [write_disk, if_neg hfile]

omit [Crypto] in
/-- The key is the one that was there, or the next one that is generated. -/
theorem initPrivValidatorKey_of_ok (h : (initPrivValidatorKey env overwrite s).result = .ok ()) :
    ∃ s', initPrivValidatorKey env overwrite s = ⟨.ok (), s', []⟩ ∧
      s'.disk .genesis = s.disk .genesis ∧ (Kept overwrite s .privValidatorKey → s' = s) ∧
      (¬ Kept overwrite s .privValidatorKey →
        storedKey s'.disk = some (env.osKey s.drawn) ∧ s'.drawn = s.drawn + 1) := by
  rw [initPrivValidatorKey, unlessKept_run] at h ⊢
  by_cases hkept : Kept overwrite s .privValidatorKey
  · rw [if_pos hkept]
    exact ⟨s, rfl, rfl, fun _ => rfl, fun hnot => absurd hkept hnot⟩
  · rw [if_neg hkept] at h ⊢
    obtain ⟨text, hdata, hrun⟩ := saveAs_of_ok (s := { s with drawn := s.drawn + 1 }) h
    refine ⟨_, hrun, ?_, fun hkept' => absurd hkept' hkept, fun _ => ⟨?_, rfl⟩⟩
    · rw [write_disk, if_neg (by decide)]
    · rw [storedKey, write_disk, if_pos rfl]
      exact FileFormat.privateKeyFromJson_toJson hdata

/-- The genesis is the one that was there, or it lists the next key that is generated. -/
theorem initGenesis_of_ok (h : (initGenesis env overwrite s).result = .ok ()) :
    ∃ s', initGenesis env overwrite s = ⟨.ok (), s', []⟩ ∧
      s'.disk .privValidatorKey = s.disk .privValidatorKey ∧
      (Kept overwrite s .genesis → s' = s) ∧
      (¬ Kept overwrite s .genesis → ∃ genesis, storedGenesis s'.disk = some genesis ∧
        ∀ key, Lists genesis key ↔
          Crypto.publicKey key = Crypto.publicKey (env.osKey s.drawn)) := by
  rw [initGenesis, unlessKept_run] at h ⊢
  by_cases hkept : Kept overwrite s .genesis
  · rw [if_pos hkept]
    exact ⟨s, rfl, rfl, fun _ => rfl, fun hnot => absurd hkept hnot⟩
  · have hkeys : generatePrivateKeys env 1 false s =
        ⟨.ok [env.osKey s.drawn], { s with drawn := s.drawn + 1 }, []⟩ := rfl
    rw [if_neg hkept, Action.bind_of_ok hkeys, Action.after_nil] at h ⊢
    cases hgenesis : generateGenesis (ε := Error HomeFile)
        ([env.osKey s.drawn].map Crypto.publicKey) with
    | error stop =>
        rw [hgenesis, Action.lift_error_bind] at h
        cases h
    | ok genesis =>
        rw [hgenesis, Action.lift_ok_bind] at h
        rw [Action.lift_ok_bind]
        obtain ⟨text, hdata, hrun⟩ := saveAs_of_ok h
        refine ⟨_, hrun, ?_, fun hkept' => absurd hkept' hkept,
          fun _ => ⟨genesis, ?_, fun key => ?_⟩⟩
        · rw [write_disk, if_neg (by decide)]
        · rw [storedGenesis, write_disk, if_pos rfl]
          exact FileFormat.genesisFromJson_toJson hdata
        · rw [lists_iff_of_generateGenesis hgenesis]
          exact List.mem_singleton

/-- What `init` has done when it ends well: three parts, one after the other. -/
theorem init_of_ok (hok : (init env config overwrite s).result = .ok ()) :
    ∃ s₁ s₂ s₃, (s₁.drawn = s.drawn ∧ ∀ file, file ≠ .config → s₁.disk file = s.disk file) ∧
      initPrivValidatorKey env overwrite s₁ = ⟨.ok (), s₂, []⟩ ∧
      initGenesis env overwrite s₂ = ⟨.ok (), s₃, []⟩ ∧
      (init env config overwrite s).state = s₃ := by
  obtain ⟨⟨⟩, s', es, hfirst, -⟩ := Action.exists_of_bind_ok hok
  obtain ⟨s₁, hconfig, hsame⟩ := saveConfig_of_ok (congrArg Outcome.result hfirst)
  rw [init, Action.bind_of_ok hconfig, Action.after_nil] at hok ⊢
  obtain ⟨⟨⟩, s', es, hsecond, -⟩ := Action.exists_of_bind_ok hok
  obtain ⟨s₂, hkey, -⟩ := initPrivValidatorKey_of_ok (congrArg Outcome.result hsecond)
  rw [Action.bind_of_ok hkey, Action.after_nil] at hok ⊢
  obtain ⟨s₃, hgenesis, -⟩ := initGenesis_of_ok hok
  exact ⟨s₁, s₂, s₃, hsame, hkey, hgenesis, by rw [hgenesis]⟩

/-- The key file and the genesis file agree after `init`: neither is written, or the keys that
are generated happen to be right. -/
def KeysAgree (env : Surroundings HomeFile FileFormat.Text) (overwrite : Bool)
    (s : Machine HomeFile FileFormat.Text) : Prop :=
  if Kept overwrite s .privValidatorKey then
    Kept overwrite s .genesis ∨ ∃ key, storedKey s.disk = some key ∧
      Crypto.publicKey key = Crypto.publicKey (env.osKey s.drawn)
  else if Kept overwrite s .genesis then
    ∃ genesis, storedGenesis s.disk = some genesis ∧ Lists genesis (env.osKey s.drawn)
  else Crypto.publicKey (env.osKey s.drawn) = Crypto.publicKey (env.osKey (s.drawn + 1))

/-- **A node that has been initialised can validate its own chain exactly if** its key and its
genesis have both been there and are kept, or the keys that are generated for the files that
are written happen to be right. -/
theorem init_selfValidating_iff (hconsistent : Consistent s.disk)
    (hok : (init env config overwrite s).result = .ok ()) :
    SelfValidating (init env config overwrite s).state.disk ↔ KeysAgree env overwrite s := by
  obtain ⟨s₁, s₂, s₃, ⟨hdrawn, hsame⟩, hkey, hgenesis, hstate⟩ := init_of_ok hok
  obtain ⟨s', hkey', hgenesis₂, hkeep, hwrite⟩ :=
    initPrivValidatorKey_of_ok (congrArg Outcome.result hkey)
  obtain rfl : s' = s₂ := congrArg Outcome.state (hkey'.symm.trans hkey)
  obtain ⟨s', hgenesis', hkey₃, hkeep', hwrite'⟩ :=
    initGenesis_of_ok (congrArg Outcome.result hgenesis)
  obtain rfl : s' = s₃ := congrArg Outcome.state (hgenesis'.symm.trans hgenesis)
  have hkeySame : s₁.disk .privValidatorKey = s.disk .privValidatorKey := hsame _ (by decide)
  have hgenesisSame := hgenesis₂.trans (hsame .genesis (by decide))
  rw [Kept, hkeySame] at hkeep hwrite
  rw [Kept, hgenesisSame] at hkeep' hwrite'
  rw [hstate, KeysAgree]
  by_cases hk : Kept overwrite s .privValidatorKey
  · rw [if_pos hk]
    have hstored : storedKey s'.disk = storedKey s.disk := by
      rw [storedKey, hkey₃, hkeep hk, hkeySame, storedKey]
    by_cases hg : Kept overwrite s .genesis
    · refine iff_of_true ?_ (Or.inl hg)
      have hstored' : storedGenesis s'.disk = storedGenesis s.disk := by
        rw [storedGenesis, hkeep' hg, hgenesisSame, storedGenesis]
      exact (selfValidating_congr hstored hstored').mpr (hconsistent hk.1 hg.1)
    · obtain ⟨genesis, hgen, hlists⟩ := hwrite' hg
      rw [selfValidating_iff_of_genesis hgen, or_iff_right hg, hstored]
      simp only [hlists, hkeep hk, hdrawn]
  · rw [if_neg hk]
    obtain ⟨hstored, hnext⟩ := hwrite hk
    have hstored' : storedKey s'.disk = some (env.osKey s₁.drawn) := by
      rw [storedKey, hkey₃]
      exact hstored
    rw [selfValidating_iff_of_key hstored', hdrawn]
    by_cases hg : Kept overwrite s .genesis
    · have hsameGenesis : storedGenesis s'.disk = storedGenesis s.disk := by
        rw [storedGenesis, hkeep' hg, hgenesisSame, storedGenesis]
      rw [if_pos hg, hsameGenesis]
    · obtain ⟨genesis, hgen, hlists⟩ := hwrite' hg
      rw [if_neg hg, hgen]
      simp only [Option.some.injEq, exists_eq_left', hlists, hnext, hdrawn]

end Init

section Testnet

variable {env : Surroundings (Nat × HomeFile) FileFormat.Text} {config : Nat → FileFormat.Config}
  {genesis : Genesis} {i : Nat} {keys : List PrivateKey}
  {s : Machine (Nat × HomeFile) FileFormat.Text}

/-- The files of one node. -/
def homeOf (i : Nat) (disk : Nat × HomeFile → Option FileFormat.Text) :
    HomeFile → Option FileFormat.Text := fun file => disk (i, file)

omit [Crypto] in
/-- One pass of the loop writes the files of one node. -/
theorem testnetNodes_cons_of_ok {key : PrivateKey}
    (h : (testnetNodes env config genesis i (key :: keys) s).result = .ok ()) :
    ∃ s', testnetNodes env config genesis i (key :: keys) s =
        testnetNodes env config genesis (i + 1) keys s' ∧
      storedKey (homeOf i s'.disk) = some key ∧
      storedGenesis (homeOf i s'.disk) = some genesis ∧
      ∀ j, j ≠ i → homeOf j s'.disk = homeOf j s.disk := by
  rw [testnetNodes] at h ⊢
  obtain ⟨⟨⟩, t, es, hfirst, -⟩ := Action.exists_of_bind_ok h
  obtain ⟨text, -, hconfig⟩ := saveAs_of_ok (congrArg Outcome.result hfirst)
  rw [saveConfig, Action.bind_of_ok hconfig, Action.after_nil] at h ⊢
  obtain ⟨⟨⟩, t, es, hsecond, -⟩ := Action.exists_of_bind_ok h
  obtain ⟨text', hkeyText, hkey⟩ := saveAs_of_ok (congrArg Outcome.result hsecond)
  rw [savePrivValidatorKey, Action.bind_of_ok hkey, Action.after_nil] at h ⊢
  obtain ⟨⟨⟩, t, es, hthird, -⟩ := Action.exists_of_bind_ok h
  obtain ⟨text'', hgenesisText, hgenesis⟩ := saveAs_of_ok (congrArg Outcome.result hthird)
  rw [saveGenesis, Action.bind_of_ok hgenesis, Action.after_nil]
  refine ⟨_, rfl, ?_, ?_, fun j hj => ?_⟩
  · rw [storedKey, homeOf, write_disk, if_neg (by simp), write_disk, if_pos rfl]
    exact FileFormat.privateKeyFromJson_toJson hkeyText
  · rw [storedGenesis, homeOf, write_disk, if_pos rfl]
    exact FileFormat.genesisFromJson_toJson hgenesisText
  · funext file
    have hne : ∀ file' : HomeFile, (j, file) ≠ (i, file') := fun file' heq =>
      hj (Prod.mk.inj heq).1
    rw [homeOf, write_disk, if_neg (hne _), write_disk, if_neg (hne _), write_disk, if_neg (hne _),
      homeOf]

omit [Crypto] in
/-- By induction on the keys: every node gets its own key and the one genesis, and nothing
happens to the nodes before. -/
theorem testnetNodes_of_ok (h : (testnetNodes env config genesis i keys s).result = .ok ()) :
    (∀ k key, keys[k]? = some key →
      storedKey (homeOf (i + k) (testnetNodes env config genesis i keys s).state.disk) = some key ∧
      storedGenesis (homeOf (i + k) (testnetNodes env config genesis i keys s).state.disk) =
        some genesis) ∧
      ∀ j < i, homeOf j (testnetNodes env config genesis i keys s).state.disk =
        homeOf j s.disk := by
  induction keys generalizing i s with
  | nil => exact ⟨fun k key hk => by simp at hk, fun _ _ => rfl⟩
  | cons key keys ih =>
      obtain ⟨s', hrun, hkey, hgenesis, hother⟩ := testnetNodes_cons_of_ok h
      rw [hrun] at h ⊢
      obtain ⟨hlater, hbefore⟩ := ih h
      refine ⟨fun k key' hk => ?_, fun j hj => ?_⟩
      · cases k with
        | zero =>
            obtain rfl := Option.some.inj hk
            rw [Nat.add_zero, hbefore i (Nat.lt_succ_self i)]
            exact ⟨hkey, hgenesis⟩
        | succ k =>
            rw [← Nat.succ_add_eq_add_succ]
            exact hlater k key' hk
      · rw [hbefore j (Nat.lt_succ_of_lt hj), hother j hj.ne]

/-- **The files of a test network**: one genesis, made of the keys, and a key for each node. -/
theorem testnet_of_ok {nodes : Nat} {deterministic : Bool}
    (hok : (testnet env nodes config deterministic s).result = .ok ()) :
    ∃ (keys : List PrivateKey) (genesis : Genesis), keys.length = nodes ∧
      generateGenesis (keys.map Crypto.publicKey) =
        (.ok genesis : Call (Error (Nat × HomeFile)) Genesis) ∧
      ∀ i key, keys[i]? = some key →
        storedKey (homeOf i (testnet env nodes config deterministic s).state.disk) = some key ∧
        storedGenesis (homeOf i (testnet env nodes config deterministic s).state.disk) =
          some genesis := by
  have hkeys : ∃ keys s', generatePrivateKeys env nodes deterministic s = ⟨.ok keys, s', []⟩ ∧
      keys.length = nodes := by
    cases deterministic with
    | true => exact ⟨_, s, rfl, by simp⟩
    | false => exact ⟨_, _, rfl, by simp⟩
  obtain ⟨keys, s', hrun, hlength⟩ := hkeys
  rw [testnet, Action.bind_of_ok hrun, Action.after_nil] at hok ⊢
  cases hgenesis : generateGenesis (ε := Error (Nat × HomeFile)) (keys.map Crypto.publicKey) with
  | error stop =>
      rw [hgenesis, Action.lift_error_bind] at hok
      cases hok
  | ok genesis =>
      rw [hgenesis, Action.lift_ok_bind] at hok
      rw [Action.lift_ok_bind]
      refine ⟨keys, genesis, hlength, hgenesis, fun i key hget => ?_⟩
      have hfiles := (testnetNodes_of_ok hok).1 i key hget
      rw [Nat.zero_add] at hfiles
      exact hfiles

/-- **Every node of a test network can validate the chain.** -/
theorem testnet_selfValidating {nodes : Nat} {deterministic : Bool}
    (hok : (testnet env nodes config deterministic s).result = .ok ()) :
    ∀ i < nodes, SelfValidating
      (homeOf i (testnet env nodes config deterministic s).state.disk) := by
  obtain ⟨keys, genesis, hlength, hgenesis, hfiles⟩ := testnet_of_ok hok
  intro i hi
  have hlt : i < keys.length := by omega
  obtain ⟨hkey, hstored⟩ := hfiles i _ (List.getElem?_eq_getElem hlt)
  refine ⟨_, genesis, hkey, hstored, ?_⟩
  rw [lists_iff_of_generateGenesis hgenesis]
  exact List.mem_map_of_mem (List.getElem_mem _)

end Testnet

end Commands

section Demo

attribute [local instance] demoCrypto

/-- Texts that are what is written. -/
inductive DemoText where
  | config
  | privateKey : PrivateKey → DemoText
  | genesis : Genesis → DemoText

@[reducible] def demoFormat : FileFormat where
  Text := DemoText
  Config := Unit
  configToToml _ := .ok .config
  privateKeyToJson key := .ok (.privateKey key)
  privateKeyFromJson
    | .privateKey key => some key
    | _ => none
  genesisToJson genesis := .ok (.genesis genesis)
  genesisFromJson
    | .genesis genesis => some genesis
    | _ => none
  privateKeyFromJson_toJson h := by rw [← Except.ok.inj h]
  genesisFromJson_toJson h := by rw [← Except.ok.inj h]

attribute [local instance] demoFormat

/-- No file fails to be saved, and no two keys that are generated are the same. -/
def demoSurroundings : Surroundings HomeFile FileFormat.Text where
  osKey i := demoKey (UInt8.ofNat (i + 1))
  seededKey i := demoKey (UInt8.ofNat (i + 101))
  fault _ := none

/-- A directory without files. -/
def emptyHome : Machine HomeFile FileFormat.Text := ⟨fun _ => none, 0⟩

/-- One with a key, and with a genesis that lists it. -/
def keptHome : Machine HomeFile FileFormat.Text :=
  ⟨fun
    | .config => none
    | .privValidatorKey => some (.privateKey (demoKey 7))
    | .genesis => some (.genesis ⟨⟨[Validator.new (Crypto.publicKey (demoKey 7)) 1]⟩⟩), 0⟩

/-- **A node that is initialised in an empty directory is not in its own genesis**: its key is
the first that is generated, and the genesis lists the second. -/
theorem init_not_selfValidating :
    Consistent emptyHome.disk ∧
      (init demoSurroundings () false emptyHome).result = .ok () ∧
      storedKey (init demoSurroundings () false emptyHome).state.disk = some (demoKey 1) ∧
      storedGenesis (init demoSurroundings () false emptyHome).state.disk =
        some ⟨⟨[Validator.new (Crypto.publicKey (demoKey 2)) 1]⟩⟩ ∧
      ¬ SelfValidating (init demoSurroundings () false emptyHome).state.disk := by
  have hkey : storedKey (init demoSurroundings () false emptyHome).state.disk =
      some (demoKey 1) := by decide +kernel
  have hgenesis : storedGenesis (init demoSurroundings () false emptyHome).state.disk =
      some ⟨⟨[Validator.new (Crypto.publicKey (demoKey 2)) 1]⟩⟩ := by decide +kernel
  refine ⟨nofun, rfl, hkey, hgenesis, ?_⟩
  rw [selfValidating_iff_of_key hkey]
  rintro ⟨genesis, hstored, hlists⟩
  obtain rfl := Option.some.inj (hgenesis.symm.trans hstored)
  exact absurd (List.mem_singleton.mp hlists) (by decide +kernel)

/-- A key and a genesis that agree are kept. -/
theorem init_keeps :
    SelfValidating (init demoSurroundings () false keptHome).state.disk := by
  have hconsistent : Consistent keptHome.disk := fun _ _ =>
    ⟨demoKey 7, _, rfl, rfl, List.mem_singleton.mpr rfl⟩
  have hok : (init demoSurroundings () false keptHome).result = .ok () := rfl
  have hagree : KeysAgree demoSurroundings false keptHome := by
    rw [KeysAgree, if_pos ⟨rfl, rfl⟩]
    exact Or.inl ⟨rfl, rfl⟩
  exact (init_selfValidating_iff hconsistent hok).mpr hagree

end Demo

end Cli
end MalakethTurbo
