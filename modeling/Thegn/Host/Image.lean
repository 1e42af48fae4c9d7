import Thegn.Lib.Text

set_option autoImplicit false

/-! # Hosts, images and delivery strategies

The data a host is provisioned with (`thegn-core/src/host.rs`, `thegn-core/src/image.rs`):
digests, image references and their per-architecture resolution, what a probe learns about a
host, and `selectDelivery`, which ranks the ways an image can be brought to it. The ranking
never lists a strategy twice, whatever the preferences (`selectDelivery_nodup`).
-/

namespace Thegn.Host

open Text List

/-! ## Data model -/

inductive Arch
  | amd64
  | arm64
  deriving DecidableEq, Repr

/-- The OCI name of an architecture. -/
def Arch.ociName : Arch → Text
  | .amd64 => "amd64".toList
  | .arm64 => "arm64".toList

inductive RuntimeKind
  | podman
  | docker
  | cloudManaged
  deriving DecidableEq, Repr

def RuntimeKind.asStr : RuntimeKind → Text
  | .podman => "podman".toList
  | .docker => "docker".toList
  | .cloudManaged => "cloud".toList

/-- A container runtime found on a host. -/
structure RuntimeInfo where
  kind : RuntimeKind
  version : Text
  rootless : Bool
  socket : Option Text
  deriving DecidableEq

inductive DeliveryCap
  | sshStream
  | rsync
  | skopeoLocal
  | skopeoRemote
  | registryPull
  | remoteBuild
  | providerTemplate
  deriving DecidableEq, Repr

/-- What the probe learns about a host, as far as provisioning reads it. -/
structure HostCaps where
  arch : Arch
  runtime : Option RuntimeInfo
  delivery : Finset DeliveryCap
  canInstallRuntime : Bool
  deriving DecidableEq

/-- The characters of a lower-case hexadecimal number. -/
def isHexDigit (c : Char) : Bool := c ∈ "0123456789abcdef".toList

/-- A validated content digest `sha256:<64 hex>`. -/
structure Digest where
  hex : Text
  length_hex : hex.length = 64
  digits : ∀ c ∈ hex, isHexDigit c = true
  deriving DecidableEq

def Digest.asStr (d : Digest) : Text := "sha256:".toList ++ d.hex

/-- The 12-character short form. -/
def Digest.short (d : Digest) : Text := d.hex.take 12

/-- An image reference `name[:tag][@digest]`. -/
structure ImageRef where
  name : Text
  tag : Text
  manifestListDigest : Option Digest
  deriving DecidableEq

def ImageRef.nameTag (r : ImageRef) : Text :=
  if r.tag = [] then r.name else r.name ++ [':'] ++ r.tag

/-- `Display` of a reference. -/
def ImageRef.display (r : ImageRef) : Text :=
  match r.manifestListDigest with
  | some d => r.nameTag ++ ['@'] ++ d.asStr
  | none => r.nameTag

/-- The digests an image resolved to, by architecture. -/
structure ResolvedImage where
  perArch : Arch → Option Digest

def ResolvedImage.digestFor (r : ResolvedImage) (arch : Arch) : Option Digest := r.perArch arch

inductive VolumeSeed
  | imageCopyUp
  | tarball (digest : Digest)
  deriving DecidableEq

/-- A warm volume, known on the host by its name. -/
structure VolumeSpec where
  name : Text
  dest : Text
  seed : VolumeSeed
  deriving DecidableEq

/-- What the local side can do for a delivery. -/
structure LocalCaps where
  hasPodman : Bool
  hasSkopeo : Bool
  hasRsync : Bool

/-! ## Delivery strategies -/

inductive DeliveryStrategy
  | sshStream (rsync : Bool)
  | registryPull
  | skopeoRemoteCopy
  | remoteBuild
  | providerTemplate
  deriving DecidableEq, Repr

def DeliveryStrategy.cap : DeliveryStrategy → DeliveryCap
  | .sshStream true => .rsync
  | .sshStream false => .sshStream
  | .registryPull => .registryPull
  | .skopeoRemoteCopy => .skopeoRemote
  | .remoteBuild => .remoteBuild
  | .providerTemplate => .providerTemplate

def DeliveryStrategy.asStr : DeliveryStrategy → Text
  | .sshStream true => "ssh-stream+rsync".toList
  | .sshStream false => "ssh-stream".toList
  | .registryPull => "registry-pull".toList
  | .skopeoRemoteCopy => "skopeo-copy".toList
  | .remoteBuild => "remote-build".toList
  | .providerTemplate => "provider-template".toList

/-- The strategies both sides can carry out, in the default order. -/
def rankedStrategies (near : LocalCaps) (host : HostCaps) : List DeliveryStrategy :=
  (if .sshStream ∈ host.delivery ∧ (near.hasPodman || near.hasSkopeo) then
    (if .rsync ∈ host.delivery ∧ near.hasRsync then [DeliveryStrategy.sshStream true] else []) ++
      [DeliveryStrategy.sshStream false]
  else [])
    ++ (if .registryPull ∈ host.delivery then [.registryPull] else [])
    ++ (if .skopeoRemote ∈ host.delivery then [.skopeoRemoteCopy] else [])
    ++ (if .remoteBuild ∈ host.delivery then [.remoteBuild] else [])

/-- Append the strategies of `ss` that satisfy `ok` and are not listed yet. -/
def pushNew (ok : DeliveryStrategy → Bool) (ss acc : List DeliveryStrategy) :
    List DeliveryStrategy :=
  ss.foldl (fun acc s => if ok s ∧ s ∉ acc then acc ++ [s] else acc) acc

/-- **The delivery ladder**: capabilities filter, preferences reorder. -/
def selectDelivery (near : LocalCaps) (host : HostCaps) (prefs : List DeliveryCap) :
    List DeliveryStrategy :=
  if .providerTemplate ∈ host.delivery then [.providerTemplate]
  else
    let ranked := rankedStrategies near host
    if prefs = [] then ranked
    else
      -- preferred strategies first, the rest in their default order as fallbacks
      let preferred := prefs.foldl (fun acc p => pushNew (fun s => s.cap = p) ranked acc) []
      pushNew (fun _ => true) ranked preferred

/-! ## The ladder lists no strategy twice -/

theorem nodup_rankedStrategies (near : LocalCaps) (host : HostCaps) :
    (rankedStrategies near host).Nodup := by
  unfold rankedStrategies
  split_ifs <;> decide

theorem nodup_pushNew {ok : DeliveryStrategy → Bool} (ss : List DeliveryStrategy) :
    ∀ acc : List DeliveryStrategy, acc.Nodup → (pushNew ok ss acc).Nodup := by
  induction ss with
  | nil => intro acc h; exact h
  | cons s ss ih =>
    intro acc h
    have hstep : (if ok s ∧ s ∉ acc then acc ++ [s] else acc).Nodup := by
      split
      · rename_i hs
        rw [nodup_append]
        refine ⟨h, nodup_singleton s, ?_⟩
        intro a ha b hb
        rw [mem_singleton.mp hb]
        intro hab
        exact hs.2 (hab ▸ ha)
      · exact h
    exact ih _ hstep

/-- **The ladder is free of duplicates**, whatever is probed and preferred. -/
theorem selectDelivery_nodup (near : LocalCaps) (host : HostCaps) (prefs : List DeliveryCap) :
    (selectDelivery near host prefs).Nodup := by
  unfold selectDelivery
  dsimp only
  split
  · exact nodup_singleton _
  · split
    · exact nodup_rankedStrategies near host
    · apply nodup_pushNew
      have hprefs : ∀ (ps : List DeliveryCap) (acc : List DeliveryStrategy), acc.Nodup →
          (ps.foldl (fun acc p => pushNew (fun s => s.cap = p) (rankedStrategies near host) acc)
            acc).Nodup := by
        intro ps
        induction ps with
        | nil => intro acc h; exact h
        | cons p ps ih =>
          intro acc h
          exact ih _ (nodup_pushNew _ acc h)
      exact hprefs prefs [] nodup_nil

/-- There are six strategies, so a ladder has at most six rungs. -/
theorem length_le_of_nodup {ss : List DeliveryStrategy} (h : ss.Nodup) : ss.length ≤ 6 := by
  let all : Finset DeliveryStrategy :=
    {.sshStream true, .sshStream false, .registryPull, .skopeoRemoteCopy, .remoteBuild,
      .providerTemplate}
  have hsub : ss.toFinset ⊆ all := by
    intro s _
    cases s with
    | sshStream rsync => cases rsync <;> decide
    | registryPull => decide
    | skopeoRemoteCopy => decide
    | remoteBuild => decide
    | providerTemplate => decide
  calc ss.length = ss.toFinset.card := (toFinset_card_of_nodup h).symm
    _ ≤ all.card := Finset.card_le_card hsub
    _ = 6 := by decide

end Thegn.Host
