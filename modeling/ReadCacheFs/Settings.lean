/-
The settings: what each `SET` statement checks and stores, the profile
collectors of the connections, and what the readers see of both.

A setting that is refused throws and stores nothing. The profile type is the
exception: it is stored first and checked after, and every open checks it
again. The file policies are not checked before a storage is built from them,
and a cache directory may be there twice.
-/
import ReadCacheFs.CacheDirectories
import ReadCacheFs.FilePolicySpec
import ReadCacheFs.ReadTasks
import ReadCacheFs.ReadTransparency

namespace ReadCacheFs

open Lib

inductive PolicyScope
  | global
  | perFile
  deriving DecidableEq, Repr

inductive ParallelExecutorMode
  | internalThreadPool
  | duckdbTaskScheduler
  deriving DecidableEq, Repr

/-- `InstanceConfig` whole. A setting that is checked before it is stored has
the type of what it may be. -/
structure InstanceSettings where
  cacheBlockSize : Nat := 512 * 1024
  cacheType : CacheType := .onDisk
  profileType : String := "noop"
  maxSubrequestCount : Nat := 0
  onDiskCacheDirectories : List String
  minDiskBytesForCache : Nat := 0
  onDiskEvictionPolicy : OnDiskEvictionPolicy := .creationTimestamp
  enableDiskReaderMemCache : Bool := true
  diskReaderMaxMemCacheBlockCount : Nat := 256
  diskReaderMaxMemCacheTimeoutMillisec : Nat := 1800 * 1000
  maxInMemCacheBlockCount : Nat := 256
  inMemCacheBlockTimeoutMillisec : Nat := 3600 * 1000
  inMemCacheStorage : StorageMode := .extension
  chunking : Chunking := .fixed
  inMemCacheBytes : Nat := 0
  evictionPolicy : EvictionPolicyKind := .lru
  policyScope : PolicyScope := .global
  filePolicies : String := ""
  enableMetadataCache : Bool := true
  maxMetadataCacheEntry : Nat := 250
  metadataCacheEntryTimeoutMillisec : Nat := 3600 * 1000
  enableFileHandleCache : Bool := true
  maxFileHandleCacheEntry : Nat := 250
  fileHandleCacheEntryTimeoutMillisec : Nat := 3600 * 1000
  enableGlobCache : Bool := true
  maxGlobCacheEntry : Nat := 64
  globCacheEntryTimeoutMillisec : Nat := 1800 * 1000
  enableCacheValidation : Bool := false
  clearCacheOnWrite : Bool := false
  parallelReadMode : ParallelExecutorMode := .internalThreadPool
  deriving DecidableEq, Repr

/-! ## The options by name -/

def allCacheTypes : List (String × CacheType) := [("noop", .noop), ("on_disk", .onDisk), ("in_mem", .inMem)]

def onDiskEvictionPolicies : List (String × OnDiskEvictionPolicy) :=
  [("creation_timestamp", .creationTimestamp), ("lru_sp", .lruSingleProc)]

def allInMemCacheStorages : List (String × StorageMode) :=
  [("extension", .extension), ("object_cache", .object), ("policy", .policy)]

def allChunkings : List (String × Chunking) := [("fixed", .fixed), ("column_chunk", .columnChunk)]

def allPolicyScopes : List (String × PolicyScope) := [("global", .global), ("per_file", .perFile)]

def allParallelExecutorModes : List (String × ParallelExecutorMode) :=
  [("internal_thread_pool", .internalThreadPool), ("duckdb_task_scheduler", .duckdbTaskScheduler)]

def evictionPolicies : List (String × EvictionPolicyKind) :=
  [("lru", .lru), ("fifo", .fifo), ("clock", .clock), ("mru", .mru)]

/-- The option a setting is set to, or an error that lists them all. -/
def optionNamed {α : Type} (setting : String) (options : List (String × α)) (name : String) : Except Fault α :=
  match options.lookup name with
  | some option => .ok option
  | none => .error (.invalidInput
      (s!"Invalid {setting} '{name}'. Valid options are: " ++ ", ".intercalate (options.map (·.1))))

/-- A count, a size or a time, which must not be 0. -/
def positive (setting : String) (value : Nat) : Except Fault Nat :=
  if value = 0 then .error (.invalidInput s!"{setting} must be greater than 0") else .ok value

/-! ## The callbacks -/

section Updates

-- `GetDefaultOnDiskCacheDirectory()`, `StringUtil::Split`, and what a setting is stored in.
variable (defaultDirectory : String) (split : StringSplit) (s : InstanceSettings)

def updateCacheType (name : String) : Except Fault InstanceSettings :=
  (optionNamed "cache_httpfs_type" allCacheTypes name).map fun cacheType => { s with cacheType }

/-- Without the remap. -/
def updateCacheBlockSize (value : Nat) : Except Fault InstanceSettings := do
  let cacheBlockSize ← positive "cache_httpfs_cache_block_size" value
  if isPowerOfTwo cacheBlockSize then .ok { s with cacheBlockSize }
  else .error (.invalidInput "cache_httpfs_cache_block_size must be a power of two")

def updateMaxFanoutSubrequest (maxSubrequestCount : Nat) : Except Fault InstanceSettings :=
  .ok { s with maxSubrequestCount }

def updateEnableCacheValidation (enableCacheValidation : Bool) : Except Fault InstanceSettings :=
  .ok { s with enableCacheValidation }

def updateClearCacheOnWrite (clearCacheOnWrite : Bool) : Except Fault InstanceSettings :=
  .ok { s with clearCacheOnWrite }

/-- The end of `UpdateCacheDirectoriesImpl`; the directories may fail to be created. -/
def storeCacheDirectories (createThrows : Bool) (directories : List String) : Except Fault InstanceSettings :=
  if directories = s.onDiskCacheDirectories then .ok s
  else if createThrows then .error .io
  else .ok { s with onDiskCacheDirectories := directories }

def setCacheDirectory (createThrows : Bool) (newCacheDirectory : String) : Except Fault InstanceSettings := do
  storeCacheDirectories s createThrows (← updateCacheDirectory defaultDirectory newCacheDirectory)

def setCacheDirectoriesConfig (createThrows : Bool) (directoriesConfigStr : String) :
    Except Fault InstanceSettings := do
  storeCacheDirectories s createThrows (← updateCacheDirectoriesConfig defaultDirectory split directoriesConfigStr)

def updateMinDiskBytesForCache (value : Nat) : Except Fault InstanceSettings :=
  (positive "cache_httpfs_min_disk_bytes_for_cache" value).map fun n => { s with minDiskBytesForCache := n }

def updateEvictPolicy (name : String) : Except Fault InstanceSettings :=
  (optionNamed "cache_httpfs_evict_policy" onDiskEvictionPolicies name).map fun onDiskEvictionPolicy =>
    { s with onDiskEvictionPolicy }

def updateDiskCacheReaderEnableMemoryCache (enableDiskReaderMemCache : Bool) : Except Fault InstanceSettings :=
  .ok { s with enableDiskReaderMemCache }

def updateDiskCacheReaderMemCacheBlockCount (value : Nat) : Except Fault InstanceSettings :=
  (positive "cache_httpfs_disk_cache_reader_mem_cache_block_count" value).map fun n =>
    { s with diskReaderMaxMemCacheBlockCount := n }

def updateDiskCacheReaderMemCacheTimeout (value : Nat) : Except Fault InstanceSettings :=
  (positive "cache_httpfs_disk_cache_reader_mem_cache_timeout_millisec" value).map fun n =>
    { s with diskReaderMaxMemCacheTimeoutMillisec := n }

def updateMaxInMemCacheBlockCount (value : Nat) : Except Fault InstanceSettings :=
  (positive "cache_httpfs_max_in_mem_cache_block_count" value).map fun n => { s with maxInMemCacheBlockCount := n }

def updateInMemCacheBlockTimeout (value : Nat) : Except Fault InstanceSettings :=
  (positive "cache_httpfs_in_mem_cache_block_timeout_millisec" value).map fun n =>
    { s with inMemCacheBlockTimeoutMillisec := n }

def updateInMemCacheStorage (name : String) : Except Fault InstanceSettings :=
  (optionNamed "cache_httpfs_in_mem_cache_storage" allInMemCacheStorages name).map fun inMemCacheStorage =>
    { s with inMemCacheStorage }

def updateChunking (name : String) : Except Fault InstanceSettings :=
  (optionNamed "cache_httpfs_chunking" allChunkings name).map fun chunking => { s with chunking }

def updateInMemCacheBytes (inMemCacheBytes : Nat) : Except Fault InstanceSettings :=
  .ok { s with inMemCacheBytes }

def updateEvictionPolicy (name : String) : Except Fault InstanceSettings :=
  (optionNamed "cache_httpfs_eviction_policy" evictionPolicies name).map fun evictionPolicy => { s with evictionPolicy }

def updatePolicyScope (name : String) : Except Fault InstanceSettings :=
  (optionNamed "cache_httpfs_policy_scope" allPolicyScopes name).map fun policyScope => { s with policyScope }

def updateFilePolicies (filePolicies : String) : Except Fault InstanceSettings := .ok { s with filePolicies }

/-- With `ParseParallelExecutorMode`. -/
def updateParallelReadMode (name : String) : Except Fault InstanceSettings :=
  (optionNamed "cache_httpfs_parallel_read_mode" allParallelExecutorModes name).map fun parallelReadMode =>
    { s with parallelReadMode }

def updateEnableMetadataCache (enableMetadataCache : Bool) : Except Fault InstanceSettings :=
  .ok { s with enableMetadataCache }

def updateMetadataCacheEntrySize (value : Nat) : Except Fault InstanceSettings :=
  (positive "cache_httpfs_metadata_cache_entry_size" value).map fun n => { s with maxMetadataCacheEntry := n }

def updateMetadataCacheEntryTimeout (value : Nat) : Except Fault InstanceSettings :=
  (positive "cache_httpfs_metadata_cache_entry_timeout_millisec" value).map fun n =>
    { s with metadataCacheEntryTimeoutMillisec := n }

def updateEnableFileHandleCache (enableFileHandleCache : Bool) : Except Fault InstanceSettings :=
  .ok { s with enableFileHandleCache }

def updateFileHandleCacheEntrySize (value : Nat) : Except Fault InstanceSettings :=
  (positive "cache_httpfs_file_handle_cache_entry_size" value).map fun n => { s with maxFileHandleCacheEntry := n }

def updateFileHandleCacheEntryTimeout (value : Nat) : Except Fault InstanceSettings :=
  (positive "cache_httpfs_file_handle_cache_entry_timeout_millisec" value).map fun n =>
    { s with fileHandleCacheEntryTimeoutMillisec := n }

def updateEnableGlobCache (enableGlobCache : Bool) : Except Fault InstanceSettings :=
  .ok { s with enableGlobCache }

def updateGlobCacheEntrySize (value : Nat) : Except Fault InstanceSettings :=
  (positive "cache_httpfs_glob_cache_entry_size" value).map fun n => { s with maxGlobCacheEntry := n }

def updateGlobCacheEntryTimeout (value : Nat) : Except Fault InstanceSettings :=
  (positive "cache_httpfs_glob_cache_entry_timeout_millisec" value).map fun n =>
    { s with globCacheEntryTimeoutMillisec := n }

end Updates

/-- A `SET` statement, with the value `GetValue` or `ToString` makes of it. -/
inductive SetStatement
  | cacheType (name : String)
  | cacheBlockSize (value : Nat)
  | profileType (name : String)
  | maxFanoutSubrequest (value : Nat)
  | enableCacheValidation (enable : Bool)
  | clearCacheOnWrite (enable : Bool)
  /-- Creating the directories may throw. -/
  | cacheDirectory (createThrows : Bool) (directory : String)
  | cacheDirectoriesConfig (createThrows : Bool) (directories : String)
  | minDiskBytesForCache (value : Nat)
  | evictPolicy (name : String)
  | diskCacheReaderEnableMemoryCache (enable : Bool)
  | diskCacheReaderMemCacheBlockCount (value : Nat)
  | diskCacheReaderMemCacheTimeout (value : Nat)
  | maxInMemCacheBlockCount (value : Nat)
  | inMemCacheBlockTimeout (value : Nat)
  | inMemCacheStorage (name : String)
  | chunking (name : String)
  | inMemCacheBytes (value : Nat)
  | evictionPolicy (name : String)
  | policyScope (name : String)
  | filePolicies (policies : String)
  | parallelReadMode (name : String)
  | enableMetadataCache (enable : Bool)
  | metadataCacheEntrySize (value : Nat)
  | metadataCacheEntryTimeout (value : Nat)
  | enableFileHandleCache (enable : Bool)
  | fileHandleCacheEntrySize (value : Nat)
  | fileHandleCacheEntryTimeout (value : Nat)
  | enableGlobCache (enable : Bool)
  | globCacheEntrySize (value : Nat)
  | globCacheEntryTimeout (value : Nat)
  deriving DecidableEq, Repr

/-- What the callback of a setting stores. -/
def SetStatement.update (defaultDirectory : String) (split : StringSplit) (s : InstanceSettings) :
    SetStatement → Except Fault InstanceSettings
  | .cacheType name => updateCacheType s name
  | .cacheBlockSize value => updateCacheBlockSize s value
  | .profileType name => .ok { s with profileType := name }
  | .maxFanoutSubrequest value => updateMaxFanoutSubrequest s value
  | .enableCacheValidation enable => updateEnableCacheValidation s enable
  | .clearCacheOnWrite enable => updateClearCacheOnWrite s enable
  | .cacheDirectory createThrows directory => setCacheDirectory defaultDirectory s createThrows directory
  | .cacheDirectoriesConfig createThrows directories =>
    setCacheDirectoriesConfig defaultDirectory split s createThrows directories
  | .minDiskBytesForCache value => updateMinDiskBytesForCache s value
  | .evictPolicy name => updateEvictPolicy s name
  | .diskCacheReaderEnableMemoryCache enable => updateDiskCacheReaderEnableMemoryCache s enable
  | .diskCacheReaderMemCacheBlockCount value => updateDiskCacheReaderMemCacheBlockCount s value
  | .diskCacheReaderMemCacheTimeout value => updateDiskCacheReaderMemCacheTimeout s value
  | .maxInMemCacheBlockCount value => updateMaxInMemCacheBlockCount s value
  | .inMemCacheBlockTimeout value => updateInMemCacheBlockTimeout s value
  | .inMemCacheStorage name => updateInMemCacheStorage s name
  | .chunking name => updateChunking s name
  | .inMemCacheBytes value => updateInMemCacheBytes s value
  | .evictionPolicy name => updateEvictionPolicy s name
  | .policyScope name => updatePolicyScope s name
  | .filePolicies policies => updateFilePolicies s policies
  | .parallelReadMode name => updateParallelReadMode s name
  | .enableMetadataCache enable => updateEnableMetadataCache s enable
  | .metadataCacheEntrySize value => updateMetadataCacheEntrySize s value
  | .metadataCacheEntryTimeout value => updateMetadataCacheEntryTimeout s value
  | .enableFileHandleCache enable => updateEnableFileHandleCache s enable
  | .fileHandleCacheEntrySize value => updateFileHandleCacheEntrySize s value
  | .fileHandleCacheEntryTimeout value => updateFileHandleCacheEntryTimeout s value
  | .enableGlobCache enable => updateEnableGlobCache s enable
  | .globCacheEntrySize value => updateGlobCacheEntrySize s value
  | .globCacheEntryTimeout value => updateGlobCacheEntryTimeout s value

/-! ## The profile collectors -/

inductive ProfileCollector
  | noop
  | temp (stats : TempProfileCollector)

/-- `GetProfilerType`. -/
def ProfileCollector.profilerType : ProfileCollector → String
  | .noop => "noop"
  | .temp _ => "temp"

/-- `CacheHttpfsInstanceState`, as far as settings and connections go. -/
structure InstanceState where
  settings : InstanceSettings
  /-- `profile_collectors`, by connection. -/
  profileCollectors : Nat → Option ProfileCollector := fun _ => none

def newProfileCollector (profileType : String) : Except Fault ProfileCollector :=
  if profileType = "noop" then .ok .noop
  else if profileType = "temp" then .ok (.temp {})
  else .error (.invalidInput s!"Invalid cache_httpfs_profile_type '{profileType}'. Valid options are: 'noop', 'temp'")

namespace InstanceState

/-- A collector of the type asked for stays as it is. -/
def setProfileCollector (connection : Nat) (profileType : String) (s : InstanceState) :
    Except Fault InstanceState :=
  if (s.profileCollectors connection).map (·.profilerType) = some profileType then .ok s
  else (newProfileCollector profileType).map fun collector =>
    { s with profileCollectors := Function.update s.profileCollectors connection (some collector) }

/-- `OnConnectionClosed`. -/
def closeConnection (connection : Nat) (s : InstanceState) : InstanceState :=
  { s with profileCollectors := Function.update s.profileCollectors connection none }

/-- `InitializeGlobalConfig`, which is the first thing an open or a glob does. -/
def initializeGlobalConfig (connection : Nat) (s : InstanceState) : Except Fault InstanceState :=
  s.setProfileCollector connection s.settings.profileType

/-- A `SET` statement: what it throws, and the state it leaves. -/
def set (defaultDirectory : String) (split : StringSplit) (connection : Nat) (statement : SetStatement)
    (s : InstanceState) :
    Option Fault × InstanceState :=
  match statement.update defaultDirectory split s.settings with
  | .error fault => (some fault, s)
  | .ok settings =>
    let s := { s with settings }
    match statement with
    | .profileType name => match s.setProfileCollector connection name with
      | .error fault => (some fault, s)
      | .ok s => (none, s)
    | _ => (none, s)

end InstanceState

/-! ## What the readers see -/

namespace InstanceSettings

variable (split : StringSplit) (percentOf : PercentOf) (s : InstanceSettings)

/-- The options a policy storage is built from. -/
def policyOptions : Except Fault PolicyStorageOptions :=
  match s.policyScope with
  | .global => .ok { maxBytes := s.inMemCacheBytes, evictionPolicy := s.evictionPolicy }
  | .perFile => (parseFilePolicySpec split percentOf s.inMemCacheBytes s.filePolicies).map fun filePolicies =>
      { maxBytes := s.inMemCacheBytes, evictionPolicy := s.evictionPolicy, filePolicies }

def configWith (policyOptions : PolicyStorageOptions) : InstanceConfig :=
  { cacheBlockSize := s.cacheBlockSize
    cacheType := s.cacheType
    onDiskCacheDirectories := s.onDiskCacheDirectories
    enableDiskReaderMemCache := s.enableDiskReaderMemCache
    diskReaderMaxMemCacheBlockCount := s.diskReaderMaxMemCacheBlockCount
    diskReaderMaxMemCacheTimeoutMillisec := s.diskReaderMaxMemCacheTimeoutMillisec
    maxInMemCacheBlockCount := s.maxInMemCacheBlockCount
    inMemCacheBlockTimeoutMillisec := s.inMemCacheBlockTimeoutMillisec
    inMemCacheStorage := s.inMemCacheStorage
    policyOptions
    chunking := s.chunking
    enableCacheValidation := s.enableCacheValidation
    onDiskEvictionPolicy := s.onDiskEvictionPolicy }

/-- Only a policy storage looks at its options. -/
def readerConfig : Except Fault InstanceConfig :=
  (if s.inMemCacheStorage = .policy then s.policyOptions split percentOf
    else .ok { evictionPolicy := s.evictionPolicy }).map s.configWith

/-- The storage the in-memory reader is built with. -/
def buildStorage : Except Fault DataCacheStorage := do
  let config ← s.readerConfig split percentOf
  buildInMemoryDataCacheStorage config.inMemCacheStorage config.maxInMemCacheBlockCount config.inMemCacheBlockTimeoutMillisec
    config.policyOptions

def metadataConfig : MetadataConfig :=
  { enableMetadataCache := s.enableMetadataCache
    maxMetadataCacheEntry := s.maxMetadataCacheEntry
    metadataCacheEntryTimeoutMillisec := s.metadataCacheEntryTimeoutMillisec }

end InstanceSettings

/-! ## What a setting keeps -/

theorem positive_eq_ok {setting : String} {value n : Nat} :
    positive setting value = .ok n ↔ n = value ∧ 0 < value := by
  unfold positive
  split
  next h => simp [h]
  next h => simp [eq_comm, Nat.pos_of_ne_zero h]

/-- The setting of the eviction policy and the file policies know the same names. -/
theorem evictionPolicies_lookup (name : String) :
    evictionPolicies.lookup name = EvictionPolicyKind.ofName name := by
  simp only [evictionPolicies, EvictionPolicyKind.ofName, List.lookup_cons, List.lookup_nil]
  repeat' split
  all_goals simp_all

namespace InstanceSettings

/-- The counts and the timeouts. -/
def limits (s : InstanceSettings) : List Nat :=
  [ s.diskReaderMaxMemCacheBlockCount, s.diskReaderMaxMemCacheTimeoutMillisec, s.maxInMemCacheBlockCount
  , s.inMemCacheBlockTimeoutMillisec, s.maxMetadataCacheEntry, s.metadataCacheEntryTimeoutMillisec
  , s.maxFileHandleCacheEntry, s.fileHandleCacheEntryTimeoutMillisec, s.maxGlobCacheEntry
  , s.globCacheEntryTimeoutMillisec ]

/-- What every `SET` statement keeps. -/
structure OK (s : InstanceSettings) : Prop where
  blockSize : BlockSizeOK s.cacheBlockSize
  /-- 0 would be without a limit. -/
  limits : ∀ n ∈ s.limits, 0 < n
  directories : s.onDiskCacheDirectories ≠ []

end InstanceSettings

theorem updateCacheDirectoriesImpl_ne_nil {directories dirs : List String} (hne : directories ≠ [])
    (h : updateCacheDirectoriesImpl directories = .ok dirs) : dirs ≠ [] := by
  obtain ⟨dir, hdir⟩ := List.exists_mem_of_ne_nil directories hne
  obtain ⟨d, hd, _⟩ := (mem_updateCacheDirectoriesImpl h).1 dir hdir
  exact List.ne_nil_of_mem hd

/-- No setting is a size of more than 64 bits. -/
def SetStatement.Wide : SetStatement → Prop
  | .cacheBlockSize value => value < 2 ^ 64
  | _ => True

theorem updateCacheBlockSize_eq_ok {s s' : InstanceSettings} {value : Nat}
    (h : updateCacheBlockSize s value = .ok s') :
    ¬(value = 0 ∨ ¬isPowerOfTwo value) ∧ s' = { s with cacheBlockSize := value } := by
  obtain ⟨n, hn, hset⟩ := except_bind_eq_ok.mp h
  obtain ⟨rfl, hpos⟩ := positive_eq_ok.mp hn
  split at hset
  next hpow =>
    cases hset
    exact ⟨by simp [hpow]; omega, rfl⟩
  next => cases hset

theorem storeCacheDirectories_eq_ok {s s' : InstanceSettings} {createThrows : Bool} {directories : List String}
    (h : storeCacheDirectories s createThrows directories = .ok s') :
    s' = { s with onDiskCacheDirectories := directories } := by
  unfold storeCacheDirectories at h
  split at h
  next hsame =>
    cases h
    rw [hsame]
  split at h
  · cases h
  · cases h
    rfl

/-- The profile type last asked for. -/
def SetStatement.profileTypeAfter (profileType : String) : SetStatement → String
  | .profileType name => name
  | _ => profileType

def SetStatement.blockSizeAfter (cacheBlockSize : Nat) : SetStatement → Nat
  | .cacheBlockSize value => value
  | _ => cacheBlockSize

open InstanceSettings in
/-- What a statement accepted keeps, and what it leaves of the two settings
that are more than stored. -/
theorem SetStatement.update_spec {defaultDirectory : String} {split : StringSplit}
    (hsplit : ∀ text sep, text ≠ [] → split.split text sep ≠ []) {s s' : InstanceSettings}
    {statement : SetStatement} (hu : statement.update defaultDirectory split s = .ok s') :
    (statement.Wide → s.OK → s'.OK) ∧ s'.profileType = statement.profileTypeAfter s.profileType ∧
      s'.cacheBlockSize = statement.blockSizeAfter s.cacheBlockSize := by
  cases statement with
  | cacheBlockSize value =>
    obtain ⟨haccepted, rfl⟩ := updateCacheBlockSize_eq_ok hu
    exact ⟨fun hwide h => { h with blockSize := CacheFileSystem.BlockSizeOK.of_accepted haccepted hwide },
      rfl, rfl⟩
  | cacheDirectory createThrows directory =>
    obtain ⟨dirs, hdirs, hset⟩ := except_bind_eq_ok.mp hu
    obtain rfl := storeCacheDirectories_eq_ok hset
    exact ⟨fun _ h => { h with directories := updateCacheDirectoriesImpl_ne_nil (by simp) hdirs }, rfl, rfl⟩
  | cacheDirectoriesConfig createThrows directories =>
    obtain ⟨dirs, hdirs, hset⟩ := except_bind_eq_ok.mp hu
    obtain rfl := storeCacheDirectories_eq_ok hset
    refine ⟨fun _ h => { h with directories := updateCacheDirectoriesImpl_ne_nil ?_ hdirs }, rfl, rfl⟩
    split
    · simp
    next hne => simpa using hsplit _ ';' (by simpa using hne)
  | _ =>
    -- every other setting is stored as it is, or once it is found not to be 0
    first
    | cases hu
      exact ⟨fun _ h => { h with }, rfl, rfl⟩
    | obtain ⟨n, hn, rfl⟩ := except_map_eq_ok.mp hu
      refine ⟨fun _ h => ?_, rfl, rfl⟩
      first
      | exact { h with }
      | obtain ⟨rfl, hpos⟩ := positive_eq_ok.mp hn
        have hlimits := h.limits
        simp only [InstanceSettings.limits, List.forall_mem_cons] at hlimits
        exact { h with limits := by simp [InstanceSettings.limits]; omega }

/-- A collector can be made for it. -/
def IsProfileType (profileType : String) : Prop := profileType = "noop" ∨ profileType = "temp"

instance (profileType : String) : Decidable (IsProfileType profileType) := inferInstanceAs (Decidable (_ ∨ _))

theorem ProfileCollector.isProfileType (collector : ProfileCollector) : IsProfileType collector.profilerType := by
  cases collector with
  | noop => exact .inl rfl
  | temp stats => exact .inr rfl

/-- What a collector is made of, or that none can be. -/
theorem newProfileCollector_spec (profileType : String) :
    (IsProfileType profileType ∧
      ∃ collector, newProfileCollector profileType = .ok collector ∧ collector.profilerType = profileType) ∨
    (¬IsProfileType profileType ∧ ∃ fault, newProfileCollector profileType = .error fault) := by
  unfold newProfileCollector
  split
  next h => exact .inl ⟨.inl h, .noop, rfl, h.symm⟩
  split
  next h => exact .inl ⟨.inr h, .temp {}, rfl, h.symm⟩
  next hnoop htemp => exact .inr ⟨not_or.mpr ⟨hnoop, htemp⟩, _, rfl⟩

namespace InstanceState

/-- The type of the collector a connection has. -/
def profilerType (s : InstanceState) (connection : Nat) : Option String :=
  (s.profileCollectors connection).map (·.profilerType)

theorem setProfileCollector_spec (connection : Nat) (profileType : String) (s : InstanceState) :
    (IsProfileType profileType ∧ ∃ s', s.setProfileCollector connection profileType = .ok s' ∧
      s'.settings = s.settings ∧
      s'.profilerType connection = some profileType) ∨
    (¬IsProfileType profileType ∧ ∃ fault, s.setProfileCollector connection profileType = .error fault) := by
  unfold setProfileCollector
  split
  next hsame =>
    obtain ⟨collector, _, rfl⟩ := Option.map_eq_some_iff.mp hsame
    exact .inl ⟨collector.isProfileType, s, rfl, rfl, hsame⟩
  next =>
    rcases newProfileCollector_spec profileType with ⟨hp, collector, hnew, htype⟩ | ⟨hp, fault, hnew⟩
    · refine .inl ⟨hp, { s with
        profileCollectors := Function.update s.profileCollectors connection (some collector) }, ?_, rfl, ?_⟩
      · rw [hnew]
        rfl
      · simp [profilerType, htype]
    · exact .inr ⟨hp, fault, by rw [hnew]; rfl⟩

/-- A setting is accepted and stored, or refused and not; a profile type that
is refused is stored. -/
theorem set_cases (defaultDirectory : String) (split : StringSplit) (connection : Nat) (statement : SetStatement)
    (s : InstanceState) :
    (∃ s', s.set defaultDirectory split connection statement = (none, s') ∧
      statement.update defaultDirectory split s.settings = .ok s'.settings) ∨
    (∃ fault, s.set defaultDirectory split connection statement = (some fault, s) ∧
      statement.update defaultDirectory split s.settings = .error fault) ∨
    ∃ fault name, statement = .profileType name ∧ ¬IsProfileType name ∧
      s.set defaultDirectory split connection statement =
        (some fault, { s with settings := { s.settings with profileType := name } }) := by
  unfold set
  cases hu : statement.update defaultDirectory split s.settings with
  | error fault => exact .inr (.inl ⟨fault, rfl, rfl⟩)
  | ok settings =>
    dsimp only
    split
    next name =>
      cases hu
      rcases setProfileCollector_spec connection name
        { s with settings := { s.settings with profileType := name } } with
        ⟨_, s', hset, hsettings, _⟩ | ⟨hp, fault, hset⟩
      · rw [hset]
        exact .inl ⟨s', rfl, by rw [hsettings]⟩
      · rw [hset]
        exact .inr (.inr ⟨fault, name, rfl, hp, rfl⟩)
    next => exact .inl ⟨_, rfl, rfl⟩

end InstanceState

/-! ## Settings that can be used -/

namespace InstanceSettings

variable {split : StringSplit} {percentOf : PercentOf} {s : InstanceSettings} {config : InstanceConfig}

/-- The file policies in use build a storage, no directory ends with a slash,
and where accesses are recorded none is there twice. -/
structure Usable (split : StringSplit) (percentOf : PercentOf) (s : InstanceSettings) : Prop where
  storage : (s.buildStorage split percentOf).isOk = true
  noSlash : ∀ dir ∈ s.onDiskCacheDirectories, endsWithSlash dir = false
  distinct : s.onDiskEvictionPolicy = .lruSingleProc → s.onDiskCacheDirectories.Nodup

instance (split : StringSplit) (percentOf : PercentOf) (s : InstanceSettings) :
    Decidable (s.Usable split percentOf) :=
  decidable_of_iff
    ((s.buildStorage split percentOf).isOk = true ∧ (∀ dir ∈ s.onDiskCacheDirectories, endsWithSlash dir = false) ∧
      (s.onDiskEvictionPolicy = .lruSingleProc → s.onDiskCacheDirectories.Nodup))
    ⟨fun h => ⟨h.1, h.2.1, h.2.2⟩, fun h => ⟨h.storage, h.noSlash, h.distinct⟩⟩

theorem isOk_iff {ε α : Type} {x : Except ε α} : x.isOk = true ↔ ∃ a, x = .ok a := by
  cases x with
  | error e => simp [Except.isOk, Except.toBool]
  | ok a => simp [Except.isOk, Except.toBool]

/-- What the readers then see. -/
theorem Usable.readerConfig (hu : s.Usable split percentOf) (h : s.OK) :
    ∃ config, s.readerConfig split percentOf = .ok config ∧ config.OK ∧
      config.cacheBlockSize = s.cacheBlockSize := by
  obtain ⟨storage, hstorage⟩ := isOk_iff.mp hu.storage
  obtain ⟨config, hconfig, hbuild⟩ := except_bind_eq_ok.mp hstorage
  obtain ⟨options, _, rfl⟩ := except_map_eq_ok.mp hconfig
  exact ⟨s.configWith options, hconfig,
    ⟨fun _ => ⟨storage, hbuild⟩, fun _ => h.directories, fun _ => hu.noSlash, hu.distinct⟩, rfl⟩

end InstanceSettings

end ReadCacheFs
