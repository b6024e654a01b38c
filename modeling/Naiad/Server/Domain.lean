import Naiad.Server.Charge

/-!
# Naiad.Server.Domain

The domains a node serves, built from its settings, the prefix widths it advertises, and the
requests of clients that compute theirs from them.

* `fromSettings_bounds`: a configuration has its floor at or under its ceiling.
* `floor_le_prefixBits`, `prefixBits_le_ceiling`: the width of a request for the SHA-256 domain.
* `handshake_accepted`: **a client that follows the caps is never under the floor, and is served at
  the width it asked for**.
-/

namespace Naiad
namespace Netproto

inductive PullMode
  | wholeRepo
  | bucketed (prefixBits : Nat)
deriving DecidableEq

structure Caps where
  mode : PullMode
  hashDomain : HashDomain
  hashDomains : List HashDomain
  incrementalDomains : List HashDomain
  minQueryBits : Option Nat
  count : Option Nat
deriving DecidableEq

def effectivePrefixBits (advertised ceiling : Nat) : Nat := min advertised ceiling

/-- Raised to the floor, and never finer than what is advertised. -/
def effectivePrefixBitsFloored (advertised ceiling : Nat) (floor : Option Nat) : Nat :=
  let base := min advertised ceiling
  match floor with
  | some f => min (max base f) advertised
  | none => base

/-- The width a client asks a domain with; the floor is that of the SHA-256 domain. A repository to
be pulled whole is not asked by prefix. -/
def Caps.prefixBits (caps : Caps) (domain : HashDomain) (ceiling : Nat) : Option Nat :=
  match caps.mode with
  | .wholeRepo => none
  | .bucketed advertised =>
    some (effectivePrefixBitsFloored advertised ceiling
      (caps.minQueryBits.filter fun _ => domain = .sha256))

theorem effectivePrefixBitsFloored_le (advertised ceiling : Nat) (floor : Option Nat) :
    effectivePrefixBitsFloored advertised ceiling floor ≤ advertised := by
  cases floor with
  | none => exact Nat.min_le_left _ _
  | some f => exact Nat.min_le_right _ _

theorem le_effectivePrefixBitsFloored {advertised f : Nat} (hf : f ≤ advertised) (ceiling : Nat) :
    f ≤ effectivePrefixBitsFloored advertised ceiling (some f) :=
  Nat.le_min.2 ⟨Nat.le_max_right _ _, hf⟩

end Netproto

namespace Server

open Lib Netproto

/-! ## Settings -/

def snapshotMinQueryBits : Nat := 8

def defaultBridgeMaxQueryBits : Nat := 256

/-- The repository size to advise from when none has been counted yet. -/
def capsFallbackCount : Nat := 200000000

inductive BridgeMode
  | mirror
  | snapshot
  | sidecar
deriving DecidableEq

def BridgeMode.display : BridgeMode → String
  | .mirror => "mirror"
  | .snapshot => "snapshot"
  | .sidecar => "sidecar"

structure BridgeConfig where
  enabled : Bool
  mode : BridgeMode
  snapshotDir : Option String
  snapshotServiceId : Option Int
  maxQueryBits : Nat
  minQueryBits : Nat
  stateDb : String

/-- The file system at startup: paths beside the database, and what opening a backend gives. -/
structure StartupFiles where
  resolveBesideDb : String → String
  openSidecar : String → Nat → Except String Sidecar
  openSnapshot : String → Option Int → Except String SnapshotBackend

structure DomainConfig where
  native : HashDomain
  addedSha256 : Option Sha256Backend
  maxQueryBits : Nat
  minQueryBits : Nat

def incompatibleMode (mode : BridgeMode) : String :=
  "[serve] hash_domain = \"sha256\" and [bridge] mode = \"" ++ mode.display ++ "\" are " ++
  "incompatible: " ++ mode.display ++ " mode adds a sha256 domain beside the repo's native " ++
  "domain, so the native domain must not itself be sha256. " ++
  "Fix: either use [bridge] mode = \"mirror\" (to run a PTR mirror whose " ++
  "native store is sha256-keyed), or set [serve] hash_domain = \"blake3\" " ++
  "(or omit hash_domain to use the default) so " ++ mode.display ++ " mode adds sha256 " ++
  "alongside a blake3 native domain."

def snapshotDirMissing : String :=
  "[bridge].mode = \"snapshot\" requires [bridge].snapshot_dir " ++
  "(or NAIAD_REPO_BRIDGE_SNAPSHOT_DIR): the directory holding " ++
  "client.db, client.master.db and client.mappings.db"

namespace DomainConfig

def nativeOnly (native : HashDomain) : DomainConfig :=
  ⟨native, none, defaultBridgeMaxQueryBits, snapshotMinQueryBits⟩

/-- The configured floor, put between the hard minimum and the ceiling. -/
def clampFloor (f ceil : Nat) : Nat :=
  if f < snapshotMinQueryBits then snapshotMinQueryBits else if f > ceil then ceil else f

def fromSettings (u : Unicode) (files : StartupFiles) (native : HashDomain) (bridge : BridgeConfig)
    (sidecarPoolSize : Nat) : Except String DomainConfig :=
  if bridge.enabled = true ∧ (bridge.mode = .snapshot ∨ bridge.mode = .sidecar) ∧
      native = .sha256 then
    .error (incompatibleMode bridge.mode)
  else
    let maxQueryBits := min bridge.maxQueryBits 256
    let minQueryBits := clampFloor bridge.minQueryBits (max maxQueryBits snapshotMinQueryBits)
    if bridge.enabled = true ∧ bridge.mode = .sidecar then
      match files.openSidecar (files.resolveBesideDb bridge.stateDb) sidecarPoolSize with
      | .error e => .error e
      | .ok backend =>
        .ok ⟨native, some (.sidecar backend),
          if maxQueryBits < snapshotMinQueryBits then snapshotMinQueryBits else maxQueryBits,
          minQueryBits⟩
    else if bridge.enabled = false ∨ bridge.mode ≠ .snapshot then
      .ok ⟨native, none, max maxQueryBits snapshotMinQueryBits, minQueryBits⟩
    else
      match bridge.snapshotDir.bind fun dir =>
          if u.trim dir.toList = [] then none else some (String.ofList (u.trim dir.toList)) with
      | none => .error snapshotDirMissing
      | some configured =>
        match files.openSnapshot (files.resolveBesideDb configured) bridge.snapshotServiceId with
        | .error e => .error e
        | .ok backend =>
          .ok ⟨native, some (.snapshot backend),
            if maxQueryBits < snapshotMinQueryBits then snapshotMinQueryBits else maxQueryBits,
            minQueryBits⟩

/-- A configuration the program runs with. -/
def Built (u : Unicode) (cfg : DomainConfig) : Prop :=
  cfg = nativeOnly cfg.native ∨ ∃ files native bridge poolSize,
    fromSettings u files native bridge poolSize = .ok cfg

end DomainConfig

/-! ## Capabilities -/

/-- The mode to advertise for so many hashes and a crowd of `k`. -/
def advise (count k : Nat) : PullMode :=
  if k = 0 ∨ count < k then .wholeRepo
  else if Nat.log2 (count / k) = 0 then .wholeRepo
  else .bucketed (Nat.log2 (count / k))

def RepoState.domains (st : RepoState) : DomainConfig :=
  ⟨st.native, st.addedSha256, st.maxQueryBits, st.minQueryBits⟩

/-- `GET /repo/caps`, with the count a sidecar has cached, if there is a sidecar. -/
def RepoState.caps (st : RepoState) (k : Nat) (sidecarCount : Option (Option Nat)) : Caps where
  mode :=
    match st.addedSha256 with
    | some _ => .bucketed st.maxQueryBits
    | none =>
      match advise (st.store.distinctHashCount.getD capsFallbackCount) k with
      | .bucketed bits =>
        if st.native = .sha256 ∧ bits < st.minQueryBits then .bucketed st.minQueryBits
        else .bucketed bits
      | .wholeRepo => .wholeRepo
  hashDomain := st.native
  hashDomains := if st.served.length > 1 then st.served else []
  incrementalDomains := st.served.filter fun d => ¬ (st.addedSha256.isSome ∧ d = .sha256)
  minQueryBits :=
    if st.native = .sha256 ∨ st.addedSha256.isSome then some st.minQueryBits else none
  count :=
    match sidecarCount with
    | none => st.store.distinctHashCount
    | some none => st.store.distinctHashCount
    | some (some hashes) => some hashes

/-! ## Bounds -/

/-- What the floor check and the clamp rely on. -/
structure DomainConfig.Bounded (cfg : DomainConfig) : Prop where
  floor : snapshotMinQueryBits ≤ cfg.minQueryBits
  range : cfg.minQueryBits ≤ cfg.maxQueryBits
  ceiling : cfg.maxQueryBits ≤ 256
  native : cfg.addedSha256.isSome → cfg.native ≠ .sha256

theorem clampFloor_bounds {f ceil : Nat} (h : snapshotMinQueryBits ≤ ceil) :
    snapshotMinQueryBits ≤ DomainConfig.clampFloor f ceil ∧
      DomainConfig.clampFloor f ceil ≤ ceil := by
  unfold DomainConfig.clampFloor
  split
  · omega
  · split <;> omega

theorem raise_eq (n : Nat) :
    (if n < snapshotMinQueryBits then snapshotMinQueryBits else n) =
      max n snapshotMinQueryBits := by
  split <;> omega

theorem fromSettings_bounds {u : Unicode} {files : StartupFiles} {native : HashDomain}
    {bridge : BridgeConfig} {poolSize : Nat} {cfg : DomainConfig}
    (h : DomainConfig.fromSettings u files native bridge poolSize = .ok cfg) : cfg.Bounded := by
  let ceil := max (min bridge.maxQueryBits 256) snapshotMinQueryBits
  have hceil : ceil ≤ 256 := by
    simp only [ceil, snapshotMinQueryBits]
    omega
  obtain ⟨hlow, hhigh⟩ : _ ∧ DomainConfig.clampFloor bridge.minQueryBits ceil ≤ ceil :=
    clampFloor_bounds (Nat.le_max_right _ _)
  unfold DomainConfig.fromSettings at h
  simp only [raise_eq] at h
  split at h
  · cases h
  · rename_i hcompat
    split at h
    · rename_i hside
      split at h
      · cases h
      · cases h
        exact ⟨hlow, hhigh, hceil, fun _ hsha => hcompat ⟨hside.1, .inr hside.2, hsha⟩⟩
    · split at h
      · cases h
        exact ⟨hlow, hhigh, hceil, by simp⟩
      · rename_i hsnap
        have hon : bridge.enabled = true ∧ bridge.mode = .snapshot := by
          simpa using hsnap
        split at h
        · cases h
        · split at h
          · cases h
          · cases h
            exact ⟨hlow, hhigh, hceil, fun _ hsha => hcompat ⟨hon.1, .inl hon.2, hsha⟩⟩

theorem DomainConfig.Built.bounded {u : Unicode} {cfg : DomainConfig} (h : cfg.Built u) :
    cfg.Bounded := by
  rcases h with h | ⟨files, native, bridge, poolSize, h⟩
  · rw [h]
    exact ⟨le_refl _, by simp [nativeOnly, snapshotMinQueryBits, defaultBridgeMaxQueryBits],
      le_refl _, by simp [nativeOnly]⟩
  · exact fromSettings_bounds h

/-! ## The handshake -/

/-- The configuration is fixed at startup; the contents of the backends are not. -/
structure SameDomains (st st' : RepoState) : Prop where
  native : st'.native = st.native
  added : st'.addedSha256.isSome = st.addedSha256.isSome
  maxQueryBits : st'.maxQueryBits = st.maxQueryBits
  minQueryBits : st'.minQueryBits = st.minQueryBits

/-- The prefix width a read is served at. -/
def Asked.bits : Asked → Nat
  | .snapshot _ bits _ => bits
  | .stream _ bits _ _ => bits
  | .delta _ bits _ => bits

/-- The floor is advertised with a width that reaches it. -/
theorem floor_le_prefixBits {st : RepoState} (h : st.domains.Bounded) {k ceiling bits : Nat}
    {cached : Option (Option Nat)}
    (hsha : st.native = .sha256 ∨ st.addedSha256.isSome = true)
    (hbits : (st.caps k cached).prefixBits .sha256 ceiling = some bits) :
    st.minQueryBits ≤ bits := by
  have hfloor : (st.caps k cached).minQueryBits = some st.minQueryBits := by
    simp [RepoState.caps, hsha]
  have hrange : st.minQueryBits ≤ st.maxQueryBits := h.range
  simp only [Caps.prefixBits] at hbits
  split at hbits
  · cases hbits
  · rename_i advertised hmode
    cases hbits
    rw [hfloor, Option.filter_some]
    simp only [decide_true, if_true]
    apply le_effectivePrefixBitsFloored
    simp only [RepoState.caps] at hmode
    split at hmode
    · cases hmode
      exact hrange
    · rename_i hnone
      split at hmode
      · rename_i n _
        split at hmode
        · cases hmode
          exact le_refl _
        · rename_i hlift
          cases hmode
          have hnative : st.native = .sha256 := by simpa [hnone] using hsha
          exact Nat.le_of_not_lt fun hlt => hlift ⟨hnative, hlt⟩
      · cases hmode

/-- With an added backend no width is finer than its ceiling. -/
theorem prefixBits_le_ceiling {st : RepoState} (hadded : st.addedSha256.isSome = true)
    {k ceiling bits : Nat} {cached : Option (Option Nat)} {domain : HashDomain}
    (hbits : (st.caps k cached).prefixBits domain ceiling = some bits) :
    bits ≤ st.maxQueryBits := by
  obtain ⟨backend, hb⟩ := Option.isSome_iff_exists.1 hadded
  simp only [Caps.prefixBits, RepoState.caps, hb] at hbits
  cases hbits
  exact effectivePrefixBitsFloored_le _ _ _

/-- What a request that passes the checks is served with. -/
theorem route_bits {st : RepoState} {version : Nat} {req : BucketRequest} {asked : Asked}
    {domain : HashDomain}
    (hdom : resolveDomain st.unicode req.domain st.served st.native = .ok domain)
    (h : route st version req = .ok asked) :
    (domain = st.native ∧ asked.bits = min req.prefixBits 256) ∨
      st.addedSha256.isSome = true ∧
        asked.bits = min (min req.prefixBits st.maxQueryBits) 256 := by
  unfold route at h
  split at h
  · cases h
  · split at h
    · cases h
    · rw [hdom] at h
      simp only at h
      split at h
      · cases h
      · split at h
        · right
          unfold routeAdded at h
          split at h
          · cases h
          · rename_i backend hb
            split at h
            · cases h
            · split at h
              · cases h
              · cases h
                refine ⟨by simp [hb], ?_⟩
                cases backend <;> split <;> rfl
        · rename_i hnative
          refine .inl ⟨by simpa using hnative, ?_⟩
          unfold routeNative at h
          split at h
          · cases h
          · simp only at h
            split at h
            · cases h
              split <;> rfl
            · cases h
              rfl

theorem route_belowFloor {st : RepoState} {version : Nat} {req : BucketRequest}
    {minQueryBits maxQueryBits got : Nat}
    (h : route st version req = .error (.belowFloor minQueryBits maxQueryBits got)) :
    resolveDomain st.unicode req.domain st.served st.native = .ok .sha256 ∧
      req.prefixBits < st.minQueryBits := by
  unfold route at h
  split at h
  · cases h
  · split at h
    · cases h
    · split at h
      · cases h
      · rename_i domain hdom
        split at h
        · rename_i hlow
          exact ⟨by rw [hdom, hlow.1], hlow.2⟩
        · split at h
          · unfold routeAdded at h
            split at h
            · cases h
            · split at h
              · cases h
              · split at h
                · cases h
                · cases h
          · unfold routeNative at h
            split at h
            · cases h
            · simp only at h
              split at h <;> cases h

/-- A node that answers the SHA-256 domain has it as its own domain or added. -/
theorem serves_sha256 {st : RepoState} {requested : Option String}
    (h : resolveDomain st.unicode requested st.served st.native = .ok .sha256) :
    st.native = .sha256 ∨ st.addedSha256.isSome = true := by
  unfold resolveDomain at h
  split at h
  · exact .inl (by simpa using h)
  · split at h
    · exact .inl (by simpa using h)
    · split at h
      · cases h
      · split at h
        · rename_i domain _ hmem
          cases h
          simp only [RepoState.served, List.mem_cons] at hmem
          rcases hmem with hmem | hmem
          · exact .inl hmem.symm
          · split at hmem
            · rename_i hadd
              exact .inr hadd.1
            · cases hmem
        · cases h

/-- **A client that computes its prefix width from the caps of a node, at any size of the
repository and for any crowd, is never rejected by the floor of that node; it is served at the
width it asked for when a backend was added for the domain, and else at that width cut to the
width of a hash, in both cases not under the floor.** -/
theorem handshake_accepted {st₀ st : RepoState} (hbuilt : st₀.domains.Built st₀.unicode)
    (hsame : SameDomains st₀ st) {k ceiling bits : Nat} {cached : Option (Option Nat)}
    {domain : HashDomain} (hbits : (st₀.caps k cached).prefixBits domain ceiling = some bits)
    {req : BucketRequest} (hreq : req.prefixBits = bits)
    (hdom : resolveDomain st.unicode req.domain st.served st.native = .ok domain)
    (version : Nat) :
    (∀ minQueryBits maxQueryBits got,
      route st version req ≠ .error (.belowFloor minQueryBits maxQueryBits got)) ∧
    ∀ asked, route st version req = .ok asked →
      asked.bits ≤ bits ∧ (domain ≠ st.native → asked.bits = bits) ∧
        (domain = st.native → asked.bits = min bits 256) ∧
        (domain = .sha256 → st.minQueryBits ≤ asked.bits) := by
  have hbounds := hbuilt.bounded
  have hfloor : domain = .sha256 → st.minQueryBits ≤ bits := by
    rintro rfl
    have hsha := serves_sha256 hdom
    rw [hsame.native, hsame.added] at hsha
    rw [hsame.minQueryBits]
    exact floor_le_prefixBits hbounds hsha hbits
  have hmin : st.minQueryBits ≤ 256 := by
    rw [hsame.minQueryBits]
    exact hbounds.range.trans hbounds.ceiling
  refine ⟨fun minQueryBits maxQueryBits got hroute => ?_, fun asked hroute => ?_⟩
  · obtain ⟨hsha, hlow⟩ := route_belowFloor hroute
    rw [hdom] at hsha
    cases hsha
    have := hfloor rfl
    omega
  · rcases route_bits hdom hroute with ⟨hnative, heq⟩ | ⟨hadded, heq⟩
    · rw [hreq] at heq
      refine ⟨by omega, fun h => absurd hnative h, fun _ => heq, fun h => ?_⟩
      have := hfloor h
      omega
    · rw [hsame.added] at hadded
      have hle := prefixBits_le_ceiling hadded hbits
      have hceil : st₀.maxQueryBits ≤ 256 := hbounds.ceiling
      rw [hreq, hsame.maxQueryBits] at heq
      refine ⟨by omega, fun _ => by omega, fun _ => by omega, fun h => ?_⟩
      have := hfloor h
      omega

def coarseBridge : BridgeConfig := ⟨true, .sidecar, none, none, 24, 16, "bridge.db"⟩

def coarseFiles : StartupFiles where
  resolveBesideDb := fun path => path
  openSidecar := fun _ _ => .ok ⟨∅, ∅, by simp⟩
  openSnapshot := fun _ _ => .error "no snapshot"

def coarseState : RepoState where
  unicode := Unicode.asciiText
  store := .empty
  native := .blake3
  addedSha256 := some (.sidecar ⟨∅, ∅, by simp⟩)
  minQueryBits := 16
  maxQueryBits := 24
  bucketBudget := 1000

/-- A client whose own ceiling is 4 asks with the floor, 16. -/
theorem handshake_accepted_coarse :
    (∀ minQueryBits maxQueryBits got,
      route coarseState protocolVersion ⟨16, [], none, some "sha256", false, none⟩ ≠
        .error (.belowFloor minQueryBits maxQueryBits got)) ∧
    ∀ asked, route coarseState protocolVersion ⟨16, [], none, some "sha256", false, none⟩ =
        .ok asked →
      asked.bits ≤ 16 ∧ (HashDomain.sha256 ≠ coarseState.native → asked.bits = 16) ∧
        (HashDomain.sha256 = coarseState.native → asked.bits = min 16 256) ∧
        (HashDomain.sha256 = .sha256 → coarseState.minQueryBits ≤ asked.bits) :=
  have hbits : (coarseState.caps 5 none).prefixBits .sha256 4 = some 16 := by decide +kernel
  have hdom : resolveDomain coarseState.unicode (some "sha256") coarseState.served
      coarseState.native = .ok .sha256 := by decide +kernel
  handshake_accepted (.inr ⟨coarseFiles, .blake3, coarseBridge, 4, rfl⟩) ⟨rfl, rfl, rfl, rfl⟩
    hbits rfl hdom protocolVersion

end Server
end Naiad
