/-
Sessions under the settings that `SET` statements make.

Each statement changes what the readers see (`FsAct.configure`) or remaps
their blocks, each open looks at the settings first, and nothing else does.
So a session with its statements is a session of the filesystem, and what
holds of those holds of it. The settings a statement may break are those that
are not checked when they are stored (`InstanceSettings.usable_iff`).
-/
import ReadCacheFs.ClearedReads
import ReadCacheFs.Settings

namespace ReadCacheFs

open Lib

/-- What the settings rest on: `GetDefaultOnDiskCacheDirectory`, and functions of the libraries. -/
structure SettingsEnv where
  defaultDirectory : String
  split : StringSplit
  percentOf : PercentOf

structure SettingsState where
  state : InstanceState
  session : RemoteState

inductive SettingsAct
  /-- A `SET` statement, with what a remap meets. -/
  | set (connection : Nat) (statement : SetStatement) (inMemEnv diskEnv : RemapEnv)
  | openFile (connection : Nat) (flags : OpenFlags) (path : String) (hash : PolicyHash)
  | closeConnection (connection : Nat)
  /-- Reads, clears, layouts, evictions and what others do. -/
  | operate (act : RemoteAct)

def SetStatement.remoteAct (statement : SetStatement) (inMemEnv diskEnv : RemapEnv) (config : InstanceConfig)
    (metadataConfig : MetadataConfig) : RemoteAct :=
  match statement with
  | .cacheBlockSize value => .session (.setCacheBlockSize value inMemEnv diskEnv)
  | _ => .session (.configure config metadataConfig)

/-- One statement, open or other operation. An open that throws leaves all as
it was. There is no next state where the readers could not tell their
settings, or an operation faults. -/
def settingsStep (w : World) (e : SettingsEnv) (s : SettingsState) : SettingsAct → Option SettingsState
  | .set connection statement inMemEnv diskEnv =>
    match s.state.set e.defaultDirectory e.split connection statement with
    | (some _, state) => some { s with state }
    | (none, state) => do
      let config ← (state.settings.readerConfig e.split e.percentOf).toOption
      let session ← remoteStep w s.session (statement.remoteAct inMemEnv diskEnv config state.settings.metadataConfig)
      return { state, session }
  | .openFile connection flags path hash =>
    match s.state.initializeGlobalConfig connection with
    | .error _ => some s
    | .ok state =>
      (remoteStep w s.session (.openFile state.settings.clearCacheOnWrite flags path hash)).map ({ state, session := · })
  | .closeConnection connection => some { s with state := s.state.closeConnection connection }
  | .operate act => (remoteStep w s.session act).map ({ s with session := · })

/-- Settings and opens have acts of their own, and the remote files stay as they are. -/
def RemoteAct.operates : RemoteAct → Bool
  | .replaceFile .. | .openFile .. | .session (.setCacheBlockSize ..) | .session (.configure ..)
  | .session (.openFile ..) => false
  | _ => true

def SettingsAct.OK : SettingsAct → Prop
  | .set _ statement _ _ => statement.Wide
  | .operate act => act.OK ∧ act.operates = true
  | _ => True

def KeepsUsable (e : SettingsEnv) (s : SettingsState) : SettingsAct → Prop
  | .set connection statement _ _ =>
    (s.state.set e.defaultDirectory e.split connection statement).2.settings.Usable e.split e.percentOf
  | _ => True

/-- The profile type the last statement asked for, refused or not. -/
def SettingsAct.profileTypeAfter (profileType : String) : SettingsAct → String
  | .set _ statement _ _ => statement.profileTypeAfter profileType
  | _ => profileType

/-! ## What an operation leaves -/

variable {w : World} {s s' : RemoteState} {a : RemoteAct}

def RemoteAct.configAfter (config : InstanceConfig) : RemoteAct → InstanceConfig
  | .session act => act.configAfter config
  | _ => config

theorem remoteStep_config (hs : remoteStep w s a = some s') : s'.fs.config = a.configAfter s.fs.config := by
  cases a with
  | replaceFile path contents =>
    cases hs
    rfl
  | openFile clearCacheOnWrite flags path hash =>
    obtain ⟨fs', hopen, rfl⟩ := except_map_eq_ok.mp (toOption_eq_some.mp hs)
    obtain ⟨new, ⟨_, fs₁, hclear, rfl⟩ | ⟨_, rfl⟩⟩ := CacheFileSystem.openFileExtended_cases hopen
    · obtain ⟨_, _, rfl⟩ := except_map_eq_ok.mp hclear
      rfl
    · rfl
  | failStat path env =>
    cases hs
    rfl
  | failRead path nrBytes location env fates =>
    cases hs
    exact (CacheFileSystem.afterFailedRead_same _ env fates path nrBytes location s.fs).config
  | session act =>
    obtain ⟨fs', hstep, rfl⟩ := except_map_eq_ok.mp (toOption_eq_some.mp hs)
    exact (fsStep_config hstep).1

theorem RemoteAct.configAfter_operates (hop : a.operates = true) (config : InstanceConfig) :
    a.configAfter config = config := by
  cases a with
  | session act =>
    cases act with
    | setCacheBlockSize | configure => cases hop
    | _ => rfl
  | _ => rfl

theorem remoteStep_remote (hs : remoteStep w s a = some s') :
    s'.remote = s.remote ∨ ∃ path contents, a = .replaceFile path contents := by
  cases a with
  | replaceFile path contents => exact .inr ⟨path, contents, rfl⟩
  | openFile | session =>
    obtain ⟨fs', _, rfl⟩ := except_map_eq_ok.mp (toOption_eq_some.mp hs)
    exact .inl rfl
  | failStat | failRead =>
    cases hs
    exact .inl rfl

def remoteClaims (remote : Remote) : FileClaims where
  byte path _ offset x := (remote path)[offset]? = some x
  size path n := n = (remote path).length
  sought _ _ := True

theorem remoteClaims_admits (remote : Remote) (config : InstanceConfig) (path : String) (env : ReadEnv) :
    ReadAdmitted (remoteClaims remote) remote config path env where
  size := rfl
  bytes _ := ⟨fun _ _ hx => hx, fun _ _ _ _ hb => hb⟩
  sought _ := trivial

theorem CacheFileSystem.HoldsTo.readHandle_returns {fs : CacheFileSystem}
    (h : fs.HoldsTo w.platform (remoteClaims w.remote)) (hsized : w.remote.Sized) (hp : w.platform.OK)
    (env : ReadEnv) (path : String) {buffer : Bytes} {nrBytes : Nat} (hbuf : nrBytes ≤ buffer.length)
    (location : Nat) :
    ∃ r, fs.readHandle w env path buffer nrBytes location = .ok r := by
  obtain ⟨fileSize, _, hsize, ⟨n, filled, fs', hread, _⟩ | ⟨fault, _, hpast⟩⟩ :=
    h.readImpl hsized hp (remoteClaims_admits w.remote fs.config path env) hbuf location
  · rw [CacheFileSystem.readHandle, hread]
    exact ⟨_, rfl⟩
  · have hsize : fileSize = (w.remote path).length := hsize
    omega

theorem fsStep_returns {fs : CacheFileSystem} (h : fs.HoldsTo w.platform (remoteClaims w.remote))
    (hsized : w.remote.Sized) (hp : w.platform.OK) {act : FsAct} (ha : act.OK) :
    ∃ fs', fsStep w fs act = .ok fs' := by
  cases act with
  | read handle buffer nrBytes env =>
    unfold fsStep
    dsimp only
    split
    · exact ⟨fs, rfl⟩
    next hd _ =>
      obtain ⟨r, hread⟩ := h.readHandle_returns hsized hp env hd.path ha hd.position
      rw [hread]
      exact ⟨_, rfl⟩
  | readAt handle buffer nrBytes location env =>
    unfold fsStep
    dsimp only
    split
    · exact ⟨fs, rfl⟩
    next hd _ =>
      obtain ⟨r, hread⟩ := h.readHandle_returns hsized hp env hd.path ha location
      rw [hread]
      exact ⟨_, rfl⟩
  | setCacheBlockSize newBlockSize inMemEnv diskEnv =>
    obtain ⟨fs', hset, _⟩ := h.setCacheBlockSize newBlockSize ha inMemEnv diskEnv
    exact ⟨fs', hset⟩
  | clearCacheFile hash filepath =>
    obtain ⟨fs', hclear, _⟩ := h.clearCacheFile hash filepath
    exact ⟨fs', hclear⟩
  | _ => exact ⟨_, rfl⟩

/-- No operation faults, and the caches go on holding what the remote files have. -/
theorem remoteStep_returns (hp : w.platform.OK) (h : s.HoldsTo w (remoteClaims s.remote)) (ha : a.OK) :
    ∃ s', remoteStep w s a = some s' ∧ s'.HoldsTo w (remoteClaims s.remote) := by
  have hstep : ∃ s', remoteStep w s a = some s' := by
    cases a with
    | session act =>
      obtain ⟨fs', hstep⟩ := fsStep_returns (w := w.over s.remote) h.fs h.sized hp ha
      exact ⟨{ s with fs := fs' }, by rw [remoteStep, hstep]; rfl⟩
    | openFile clearCacheOnWrite flags path hash =>
      obtain ⟨fs', hopen, _⟩ :=
        CacheFileSystem.HoldsTo.openFileExtended (w := w.over s.remote) h.fs clearCacheOnWrite flags path hash
      exact ⟨{ s with fs := fs' }, by rw [remoteStep, hopen]; rfl⟩
    | _ => exact ⟨_, rfl⟩
  obtain ⟨s', hs⟩ := hstep
  exact ⟨s', hs, remoteStep_holds hp ha (fun path env _ => remoteClaims_admits s.remote _ path env) h hs⟩

/-! ## What a session with its settings keeps -/

/-- What the readers see is what the settings are, and what is cached is what
the remote files have. -/
structure SettingsState.Sound (w : World) (e : SettingsEnv) (remote : Remote) (s : SettingsState) : Prop where
  settings : s.state.settings.OK
  usable : s.state.settings.Usable e.split e.percentOf
  seen : s.state.settings.readerConfig e.split e.percentOf = .ok s.session.fs.config
  unchanged : s.session.remote = remote
  holds : s.session.HoldsTo w (remoteClaims remote)

namespace SettingsState

variable {e : SettingsEnv} {remote : Remote} {s : SettingsState} {a : SettingsAct}

/-- The settings an accepted statement leaves are those the readers see after it. -/
theorem readerConfig_after {statement : SetStatement} {settings settings' : InstanceSettings}
    {config config' : InstanceConfig} (hsplit : ∀ text sep, text ≠ [] → e.split.split text sep ≠ [])
    (hu : statement.update e.defaultDirectory e.split settings = .ok settings')
    (hseen : settings.readerConfig e.split e.percentOf = .ok config)
    (hseen' : settings'.readerConfig e.split e.percentOf = .ok config') (inMemEnv diskEnv : RemapEnv) :
    config' = (statement.remoteAct inMemEnv diskEnv config' settings'.metadataConfig).configAfter config := by
  obtain ⟨options, hoptions, rfl⟩ := except_map_eq_ok.mp hseen
  obtain ⟨options', hoptions', rfl⟩ := except_map_eq_ok.mp hseen'
  unfold SetStatement.remoteAct
  split
  next value =>
    obtain ⟨haccepted, rfl⟩ := updateCacheBlockSize_eq_ok hu
    obtain rfl := Except.ok.inj (hoptions.symm.trans hoptions')
    exact (if_neg haccepted).symm
  next hother =>
    have hblock : settings'.cacheBlockSize = settings.cacheBlockSize := by
      rw [(SetStatement.update_spec hsplit hu).2.2, SetStatement.blockSizeAfter]
      exact hother
    rw [RemoteAct.configAfter, FsAct.configAfter]
    simp only [InstanceSettings.configWith, hblock]

theorem remoteAct_ok {statement : SetStatement} (hwide : statement.Wide) (inMemEnv diskEnv : RemapEnv)
    {config : InstanceConfig} (hconfig : config.OK) (metadataConfig : MetadataConfig) :
    (statement.remoteAct inMemEnv diskEnv config metadataConfig).OK := by
  unfold SetStatement.remoteAct
  split
  · exact hwide
  · exact hconfig

theorem remoteAct_keeps (statement : SetStatement) (inMemEnv diskEnv : RemapEnv) (config : InstanceConfig)
    (metadataConfig : MetadataConfig) (path : String) (contents : Bytes) :
    statement.remoteAct inMemEnv diskEnv config metadataConfig ≠ .replaceFile path contents := by
  unfold SetStatement.remoteAct
  split
  · simp
  · simp

theorem Sound.step (hp : w.platform.OK) (hsplit : ∀ text sep, text ≠ [] → e.split.split text sep ≠ [])
    (h : s.Sound w e remote) (ha : a.OK) (hu : KeepsUsable e s a) :
    ∃ s', settingsStep w e s a = some s' ∧ s'.Sound w e remote ∧
      s'.state.settings.profileType = a.profileTypeAfter s.state.settings.profileType := by
  obtain ⟨state, session⟩ := s
  obtain ⟨hsettings, husable, hseen, rfl, hholds⟩ := h
  cases a with
  | set connection statement inMemEnv diskEnv =>
    have hu : (state.set e.defaultDirectory e.split connection statement).2.settings.Usable e.split e.percentOf := hu
    unfold settingsStep
    dsimp only
    rcases InstanceState.set_cases e.defaultDirectory e.split connection statement state with
      ⟨state', hset, hupdate⟩ | ⟨fault, hset, hupdate⟩ | ⟨fault, name, rfl, _, hset⟩
    · rw [hset] at hu ⊢
      obtain ⟨hkeeps, hprofile, _⟩ := SetStatement.update_spec hsplit hupdate
      have hok := hkeeps ha hsettings
      obtain ⟨config, hconfig, hconfigOK, _⟩ := hu.readerConfig hok
      obtain ⟨session', hstep, hholds'⟩ :=
        remoteStep_returns hp hholds (remoteAct_ok ha inMemEnv diskEnv hconfigOK state'.settings.metadataConfig)
      have hremote : session'.remote = session.remote :=
        (remoteStep_remote hstep).resolve_right
          (not_exists.mpr fun path => not_exists.mpr (remoteAct_keeps _ _ _ _ _ path))
      refine ⟨{ state := state', session := session' }, ?_, ⟨hok, hu, ?_, hremote, hholds'⟩, hprofile⟩
      · dsimp only
        rw [hconfig]
        simp [Except.toOption, hstep]
      · rw [hconfig, remoteStep_config hstep]
        exact congrArg _ (readerConfig_after hsplit hupdate hseen hconfig inMemEnv diskEnv)
    · rw [hset]
      refine ⟨_, rfl, ⟨hsettings, husable, hseen, rfl, hholds⟩, ?_⟩
      cases statement with
      | profileType name => cases hupdate
      | _ => rfl
    · rw [hset] at hu ⊢
      exact ⟨_, rfl, ⟨{ hsettings with }, hu, hseen, rfl, hholds⟩, rfl⟩
  | openFile connection flags path hash =>
    unfold settingsStep
    dsimp only
    rcases InstanceState.setProfileCollector_spec connection state.settings.profileType state with
      ⟨_, state', hset, hsame, _⟩ | ⟨_, fault, hset⟩
    · rw [InstanceState.initializeGlobalConfig, hset]
      obtain ⟨session', hstep, hholds'⟩ :=
        remoteStep_returns (a := .openFile state'.settings.clearCacheOnWrite flags path hash) hp hholds trivial
      have hremote : session'.remote = session.remote := (remoteStep_remote hstep).resolve_right (by simp)
      refine ⟨{ state := state', session := session' }, by dsimp only; rw [hstep]; rfl,
        ⟨?_, ?_, ?_, hremote, hholds'⟩, ?_⟩
      · rw [hsame]
        exact hsettings
      · rw [hsame]
        exact husable
      · rw [hsame, hseen, remoteStep_config hstep]
        rfl
      · rw [hsame]
        rfl
    · rw [InstanceState.initializeGlobalConfig, hset]
      exact ⟨_, rfl, ⟨hsettings, husable, hseen, rfl, hholds⟩, rfl⟩
  | closeConnection connection => exact ⟨_, rfl, ⟨hsettings, husable, hseen, rfl, hholds⟩, rfl⟩
  | operate act =>
    obtain ⟨hact, hop⟩ := ha
    obtain ⟨session', hstep, hholds'⟩ := remoteStep_returns hp hholds hact
    have hremote : session'.remote = session.remote := by
      refine (remoteStep_remote hstep).resolve_right ?_
      rintro ⟨path, contents, rfl⟩
      cases hop
    refine ⟨{ state, session := session' }, by rw [settingsStep, hstep]; rfl,
      ⟨hsettings, husable, ?_, hremote, hholds'⟩, rfl⟩
    rw [hseen, remoteStep_config hstep, RemoteAct.configAfter_operates hop]

theorem Sound.run (hp : w.platform.OK) (hsplit : ∀ text sep, text ≠ [] → e.split.split text sep ≠ [])
    {as : List SettingsAct} (h : s.Sound w e remote) (has : ∀ a ∈ as, a.OK)
    (hu : Guarded (settingsStep w e) (KeepsUsable e) s as) :
    ∃ s', exec (settingsStep w e) s as = some s' ∧ s'.Sound w e remote ∧
      s'.state.settings.profileType = as.foldl SettingsAct.profileTypeAfter s.state.settings.profileType := by
  induction as generalizing s with
  | nil => exact ⟨s, rfl, h, rfl⟩
  | cons a as ih =>
    obtain ⟨t, hs, ht, hprofile⟩ := h.step hp hsplit (has a (by simp)) hu.1
    obtain ⟨s', hrun, hs', hlast⟩ := ih ht (fun b hb => has b (by simp [hb])) (hu.2 t hs)
    refine ⟨s', exec_cons.mpr ⟨t, hs, hrun⟩, hs', ?_⟩
    rw [hlast, hprofile, List.foldl_cons]

end SettingsState

instance (e : SettingsEnv) (s : SettingsState) : (a : SettingsAct) → Decidable (KeepsUsable e s a)
  | .set .. => inferInstanceAs (Decidable (InstanceSettings.Usable ..))
  | .openFile .. | .closeConnection _ | .operate _ => inferInstanceAs (Decidable True)

end ReadCacheFs
