import LeanKube.EncryptionConfig
import LeanKube.ListRelations
import Mathlib.Data.Countable.Basic
import Mathlib.Logic.Equiv.List

/-! Key rotation: which values that were written with a provider are read back after the list of providers
has changed. -/

namespace LeanKube.Encryption
open List Option Bool Nat Except ProviderConfiguration Key

theorem bytes_inj {s t : String} (h : bytes s = bytes t) : s = t :=
  String.toByteArray_inj.mp (ByteArray.ext (Array.toList_inj.mp h))

/-! ### What is assumed and wanted -/

structure Lawful (ciphers : Ciphers) : Prop where
  inverts : ∀ kind key random data context stored,
    (ciphers kind key).transformToStorage random data context = .ok stored →
      (ciphers kind key).transformFromStorage stored context = .ok (data, false)
  rejects : ∀ kind, kind ≠ .aescbc → ∀ key key', key' ≠ key → ∀ random data context stored,
    (ciphers kind key).transformToStorage random data context = .ok stored →
      ∃ text, (ciphers kind key').transformFromStorage stored context = .error (.error text)

def ProviderConfiguration.keys (provider : ProviderConfiguration) : Kind → Option (List Key)
  | .aesgcm => provider.aesgcm
  | .aescbc => provider.aescbc
  | .secretbox => provider.secretbox

inductive Writer where
  | identity
  | key (kind : Kind) (name : String) (secret : Bytes)

variable (lib : Libraries)

def Key.is (name : String) (secret : Bytes) (key : Key) : Bool :=
  key.name = name && lib.decodeString key.secret = .ok secret

def Key.begins (data : Bytes) (key : Key) : Bool := (bytes (key.name ++ ":")).isPrefixOf data

namespace Writer
variable (lib : Libraries) (providers : List ProviderConfiguration)

def isFirst : Writer → Bool
  | identity => providers.head?.any ProviderConfiguration.identity
  | key kind name secret =>
    ((providers.head?.bind fun provider => provider.keys kind).bind List.head?).any (Key.is lib name secret)

def isIn : Writer → Bool
  | identity => providers.any ProviderConfiguration.identity
  | key kind name secret =>
    providers.any fun provider => (provider.keys kind).any fun keys => keys.any (Key.is lib name secret)

def stored : Writer → Bytes → Bytes
  | identity, body => body
  | key kind name _, body => bytes kind.transformerPrefixV1 ++ (bytes (name ++ ":") ++ body)

/-- The key is the first one, in the first provider of the kind, whose name and a colon begin what follows the
prefix of the provider. -/
def isReached (body : Bytes) : Writer → Bool
  | identity => true
  | key kind name secret =>
    (providers.findSome? fun provider => provider.keys kind).any fun keys =>
      (keys.find? (Key.begins (bytes (name ++ ":") ++ body))).any (Key.is lib name secret)

end Writer

/-- A stored value is read back: whatever the ciphers, if it was written with the old list, the new list returns
what was written, and reports it as stale unless the writer is first in the new list. Values of the identity
provider do not look encrypted. -/
def Recovered (old new : List ProviderConfiguration) (writer : Writer) (stored : Bytes) : Prop :=
  ∀ ciphers, Lawful ciphers → ∀ oldTransformers newTransformers,
    getPrefixTransformers lib ciphers old = .ok oldTransformers →
    getPrefixTransformers lib ciphers new = .ok newTransformers →
    ∀ random data context, (resourceTransformer oldTransformers).transformToStorage random data context = .ok stored →
      (writer = .identity → ¬ (bytes "k8s:enc:").isPrefixOf stored) →
      (resourceTransformer newTransformers).transformFromStorage stored context = .ok (data, !writer.isFirst lib new)

/-! ### Accepted lists -/

section Accepted
variable {lib : Libraries} {ciphers : Ciphers}

theorem mapM_ok_iff {α β : Type} {f : α → Except String β} {l : List α} {r : List β} :
    l.mapM f = .ok r ↔ List.Forall₂ (fun a b => f a = .ok b) l r := by
  induction l generalizing r with
  | nil =>
    rw [mapM_nil, forall₂_nil_left_iff]
    exact ⟨fun h => (ok.inj h).symm, fun h => h ▸ rfl⟩
  | cons a l ih =>
    rw [mapM_cons, forall₂_cons_left_iff]
    cases ha : f a with
    | error => exact ⟨fun h => (nomatch h), fun ⟨_, _, h, _⟩ => (nomatch h)⟩
    | ok b =>
      cases hl : l.mapM f with
      | error =>
        refine ⟨fun h => (nomatch h), fun ⟨_, _, _, h, _⟩ => ?_⟩
        exact nomatch hl.symm.trans (ih.mpr h)
      | ok rest =>
        refine ⟨fun h => ?_, fun ⟨b', rest', hb, hrest, hr⟩ => ?_⟩
        · cases h
          exact ⟨b, rest, rfl, ih.mp hl, rfl⟩
        · cases hb
          cases hl.symm.trans (ih.mpr hrest)
          exact hr ▸ rfl

def Kind.checkSize : Kind → Key → Bytes → Except String Unit
  | aesgcm | aescbc => checkAESKey
  | secretbox => checkSecretboxKey

def OfKey (lib : Libraries) (ciphers : Ciphers) (kind : Kind) (key : Key) (transformer : PrefixTransformer) : Prop :=
  ∃ secret, lib.decodeString key.secret = .ok secret ∧ kind.checkSize key secret = .ok () ∧
    transformer = ⟨bytes (key.name ++ ":"), ciphers kind secret⟩

def Kind.noMatchingKey : Kind → String
  | aesgcm | aescbc => "no matching key was found for the provided AES transformer"
  | secretbox => "no matching key was found for the provided Secretbox transformer"

def OfKeys (lib : Libraries) (ciphers : Ciphers) (kind : Kind) (keys : List Key) (transformer : PrefixTransformer) :
    Prop :=
  (keys.length ≠ 0 ∧ keys.forM checkKey = .ok ()) ∧ ∃ keyTransformers,
    List.Forall₂ (OfKey lib ciphers kind) keys keyTransformers ∧ transformer =
      ⟨bytes kind.transformerPrefixV1, newPrefixTransformers (some kind.noMatchingKey) keyTransformers⟩

variable {transformer : PrefixTransformer}

theorem keyTransformer_ok_iff {kind : Kind} {key : Key} :
    keyTransformer lib ciphers kind kind.checkSize key = .ok transformer ↔ OfKey lib ciphers kind key transformer := by
  rw [keyTransformer, OfKey]
  cases hdec : lib.decodeString key.secret with
  | error => simp
  | ok secret =>
    cases hsize : kind.checkSize key secret with
    | error => simp [bind, Except.bind, hsize]
    | ok => simp [bind, Except.bind, hsize, eq_comm]

theorem getKeysPrefixTransformer_ok_iff (kind : Kind) {provider name : String} {keys : List Key}
    (hname : "no matching key was found for the provided " ++ name ++ " transformer" = kind.noMatchingKey) :
    getKeysPrefixTransformer lib ciphers kind provider name kind.checkSize keys = .ok transformer ↔
      OfKeys lib ciphers kind keys transformer := by
  rw [getKeysPrefixTransformer, OfKeys, hname]
  have hmap (keyTransformers : List PrefixTransformer) : List.Forall₂ (OfKey lib ciphers kind) keys keyTransformers ↔
        keys.mapM (keyTransformer lib ciphers kind kind.checkSize) = .ok keyTransformers := by
    simp only [mapM_ok_iff, keyTransformer_ok_iff]
  simp only [hmap]
  by_cases hlen : keys.length = 0
  · simp [hlen, bind, Except.bind]
  cases hcheck : keys.forM checkKey with
  | error => simp [hlen, bind, Except.bind]
  | ok =>
    cases hkeys : keys.mapM (keyTransformer lib ciphers kind kind.checkSize) with
    | error => simp [hlen, bind, Except.bind]
    | ok => simp [hlen, bind, Except.bind, eq_comm]

def OfProvider (lib : Libraries) (ciphers : Ciphers) (provider : ProviderConfiguration)
    (transformer : PrefixTransformer) : Prop :=
  (provider.identity = true ∧ (∀ kind, provider.keys kind = none) ∧ transformer = ⟨[], newEncryptCheckTransformer⟩) ∨
    (provider.identity = false ∧ ∃ kind keys, provider.keys kind = some keys ∧
      (∀ kind', kind' ≠ kind → provider.keys kind' = none) ∧ OfKeys lib ciphers kind keys transformer)

variable {P : Kind → Prop}

theorem Kind.forall_iff : (∀ kind, P kind) ↔ P .aesgcm ∧ P .aescbc ∧ P .secretbox :=
  ⟨fun h => ⟨h _, h _, h _⟩, fun h kind => by cases kind <;> simp [h]⟩

theorem Kind.exists_iff : (∃ kind, P kind) ↔ P .aesgcm ∨ P .aescbc ∨ P .secretbox := by
  constructor
  · rintro ⟨kind, h⟩
    cases kind <;> simp [h]
  · rintro (h | h | h) <;> exact ⟨_, h⟩

theorem getPrefixTransformer_ok_iff {provider : ProviderConfiguration} (hkms : provider.kms = none) :
    getPrefixTransformer lib ciphers provider = .ok transformer ↔ OfProvider lib ciphers provider transformer := by
  have hofKeys (kind : Kind) (keys : List Key) (transformer : PrefixTransformer) :
      OfKeys lib ciphers kind keys transformer ↔ (match kind with
        | .aesgcm | .aescbc => getAESPrefixTransformer lib ciphers kind keys
        | .secretbox => getSecretboxPrefixTransformer lib ciphers keys) = .ok transformer := by
    cases kind <;> exact (getKeysPrefixTransformer_ok_iff _ rfl).symm
  obtain ⟨gcm, cbc, box, identity, kms⟩ := provider
  cases hkms
  simp only [OfProvider, Kind.exists_iff, Kind.forall_iff, ProviderConfiguration.keys, hofKeys]
  cases gcm with
  | none =>
    cases cbc <;> cases box <;> cases identity <;>
      simp [getPrefixTransformer, orElseProvider, bind, Except.bind, eq_comm]
  | some keys =>
    cases hkeys : getAESPrefixTransformer lib ciphers .aesgcm keys <;> cases cbc <;> cases box <;> cases identity <;>
      simp [getPrefixTransformer, orElseProvider, bind, Except.bind, hkeys, Except.map]

theorem getPrefixTransformers_ok {providers : List ProviderConfiguration}
    (hkms : ∀ provider ∈ providers, provider.kms = none)
    {transformers : List PrefixTransformer} (h : getPrefixTransformers lib ciphers providers = .ok transformers)
    (ciphers' : Ciphers) : ∃ transformers', getPrefixTransformers lib ciphers' providers = .ok transformers' := by
  have hkey {kind : Kind} {key : Key} {t : PrefixTransformer} (ht : OfKey lib ciphers kind key t) :
      ∃ t', OfKey lib ciphers' kind key t' := by
    obtain ⟨secret, hdec, hsize, -⟩ := ht
    exact ⟨_, secret, hdec, hsize, rfl⟩
  rw [getPrefixTransformers, mapM_ok_iff] at h
  simp only [getPrefixTransformers, mapM_ok_iff]
  refine ListRelations.exists_forall₂ h fun provider hprov t ht => ?_
  rw [getPrefixTransformer_ok_iff (hkms provider hprov)] at ht
  simp only [getPrefixTransformer_ok_iff (hkms provider hprov)]
  rcases ht with ⟨hid, hkeys, -⟩ | ⟨hid, kind, keys, hkeys, hothers, hchecks, keyTransformers, hforall, -⟩
  · exact ⟨_, .inl ⟨hid, hkeys, rfl⟩⟩
  · obtain ⟨keyTransformers', hforall'⟩ := ListRelations.exists_forall₂ hforall fun _ _ _ => hkey
    exact ⟨_, .inr ⟨hid, kind, keys, hkeys, hothers, hchecks, keyTransformers', hforall', rfl⟩⟩

end Accepted

/-! ### Reading -/

section Reading
variable {lib : Libraries} {ciphers : Ciphers} {err : String} {data context : Bytes}

def atIndex (i : Nat) (result : Except Fault (Bytes × Bool)) : Except Fault (Bytes × Bool) :=
  result.map fun result => (result.1, result.2 || i ≠ 0)

variable {t : PrefixTransformer} {providers : List ProviderConfiguration}

theorem transformFrom_cons {after : List PrefixTransformer} {i : Nat} {rest : Bytes}
    (hdata : data = t.bytePrefix ++ rest) (hne : t.bytePrefix ≠ []) :
    transformFrom err data context i (t :: after) = atIndex i (t.transformer.transformFromStorage rest context) := by
  have hprefix : t.bytePrefix.isPrefixOf data = true := by
    rw [hdata, isPrefixOf_iff_prefix]
    exact prefix_append _ _
  have hdrop : data.drop t.bytePrefix.length = rest := by rw [hdata, drop_left]
  rw [transformFrom, if_pos hprefix, hdrop]
  cases t.transformer.transformFromStorage rest context with
  | ok => rfl
  | error fault =>
    cases fault with
    | error => simp [hne, atIndex, Except.map]
    | panic => rfl

theorem bytes_colon_ne_nil (name : String) : bytes (name ++ ":") ≠ [] := by
  exact append_ne_nil_of_right_ne_nil _ (by decide +kernel)

variable {kind : Kind} {keys : List Key} {transformers : List PrefixTransformer}

theorem transformFrom_other {key : Key} (h : OfKey lib ciphers kind key t)
    (hbegins : key.begins data = false) (i : Nat) (after : List PrefixTransformer) :
    transformFrom err data context i (t :: after) = transformFrom err data context (i + 1) after := by
  obtain ⟨secret, -, -, rfl⟩ := h
  rw [begins] at hbegins
  simp [transformFrom, hbegins]

section
variable (h : List.Forall₂ (OfKey lib ciphers kind) keys transformers)
include h

theorem read_keys_none (hfind : keys.find? (begins data) = none) (i : Nat) :
    transformFrom err data context i transformers = .error (.error err) := by
  induction h generalizing i with
  | nil => rfl
  | cons ht _ ih =>
    rw [find?_cons] at hfind
    split at hfind
    · exact nomatch hfind
    · next hbegins =>
        rw [transformFrom_other ht hbegins]
        exact ih hfind (i + 1)

theorem read_keys_some {key : Key} (hfind : keys.find? (begins data) = some key) (i : Nat) :
    ∃ secret rest j, lib.decodeString key.secret = .ok secret ∧ data = bytes (key.name ++ ":") ++ rest ∧
      (j = 0 ↔ keys.head? = some key) ∧ transformFrom err data context i transformers =
        atIndex (i + j) ((ciphers kind secret).transformFromStorage rest context) := by
  induction h generalizing i with
  | nil => exact nomatch hfind
  | @cons first t keys transformers ht hrest ih =>
    rw [find?_cons] at hfind
    split at hfind
    · next hbegins =>
        cases hfind
        obtain ⟨secret, hdec, -, rfl⟩ := ht
        obtain ⟨rest, hdata⟩ := isPrefixOf_iff_prefix.mp hbegins
        refine ⟨secret, rest, 0, hdec, hdata.symm, by simp, ?_⟩
        exact transformFrom_cons hdata.symm (bytes_colon_ne_nil _)
    · next hbegins =>
        obtain ⟨secret, rest, j, hdec, hdata, -, hread⟩ := ih hfind (i + 1)
        refine ⟨secret, rest, j + 1, hdec, hdata, ?_, ?_⟩
        · refine ⟨fun h => absurd h (succ_ne_zero j), fun hhead => ?_⟩
          cases hhead
          exact absurd (find?_some hfind) (eq_false_iff.mp hbegins)
        · rw [transformFrom_other ht hbegins, hread, Nat.add_right_comm, Nat.add_assoc]

end

theorem isPrefixOf_other {kind' : Kind} (h : kind' ≠ kind) (rest : Bytes) :
    (bytes kind'.transformerPrefixV1).isPrefixOf (bytes kind.transformerPrefixV1 ++ rest) = false := by
  cases kind <;> cases kind' <;> first | exact absurd rfl h | rfl

theorem isPrefixOf_enc (kind : Kind) (rest : Bytes) :
    (bytes "k8s:enc:").isPrefixOf (bytes kind.transformerPrefixV1 ++ rest) = true := by
  cases kind <;> rfl

theorem transformerPrefixV1_ne_nil (kind : Kind) : bytes kind.transformerPrefixV1 ≠ [] := by
  cases kind <;> decide +kernel

section
variable (h : List.Forall₂ (OfProvider lib ciphers) providers transformers)
include h

theorem read_providers
    (hfind : (providers.findSome? fun provider => provider.keys kind) = some keys) (rest : Bytes) (i : Nat) :
    ∃ keyTransformers j, List.Forall₂ (OfKey lib ciphers kind) keys keyTransformers ∧
      (j = 0 ↔ (providers.head?.bind fun provider => provider.keys kind) = some keys) ∧
      transformFrom err (bytes kind.transformerPrefixV1 ++ rest) context i transformers =
        atIndex (i + j) (transformFrom kind.noMatchingKey rest context 0 keyTransformers) := by
  induction h generalizing i with
  | nil => exact nomatch hfind
  | @cons provider t providers transformers ht hrest ih =>
    -- a provider without keys of the kind is passed
    have hpass (hnone : provider.keys kind = none)
        (hskip : transformFrom err (bytes kind.transformerPrefixV1 ++ rest) context i (t :: transformers) =
          transformFrom err (bytes kind.transformerPrefixV1 ++ rest) context (i + 1) transformers) :
        ∃ keyTransformers j, List.Forall₂ (OfKey lib ciphers kind) keys keyTransformers ∧
          (j = 0 ↔ ((provider :: providers).head?.bind fun provider => provider.keys kind) = some keys) ∧
          transformFrom err (bytes kind.transformerPrefixV1 ++ rest) context i (t :: transformers) =
            atIndex (i + j) (transformFrom kind.noMatchingKey rest context 0 keyTransformers) := by
      rw [findSome?_cons, hnone] at hfind
      obtain ⟨keyTransformers, j, hkeys, -, hread⟩ := ih hfind (i + 1)
      refine ⟨keyTransformers, j + 1, hkeys, ?_, ?_⟩
      · simp [hnone]
      · rw [hskip, hread, Nat.add_right_comm, Nat.add_assoc]
    rcases ht with ⟨-, hnone, rfl⟩ | ⟨-, kind', keys', hkeys', hothers, -, keyTransformers, hforall, rfl⟩
    · refine hpass (hnone kind) ?_
      have henc := isPrefixOf_iff_prefix.mp (isPrefixOf_enc kind rest)
      simp [transformFrom, newEncryptCheckTransformer, henc]
    · by_cases hkind : kind' = kind
      · subst hkind
        rw [findSome?_cons, hkeys'] at hfind
        cases hfind
        refine ⟨keyTransformers, 0, hforall, by simp [hkeys'], ?_⟩
        exact transformFrom_cons rfl (transformerPrefixV1_ne_nil _)
      · refine hpass (hothers kind fun heq => hkind heq.symm) ?_
        simp [transformFrom, isPrefixOf_other hkind]

theorem read_identity (hid : providers.any identity = true) (hplain : ¬ (bytes "k8s:enc:").isPrefixOf data) (i : Nat) :
    ∃ j, (j = 0 ↔ providers.head?.any identity = true) ∧
      transformFrom err data context i transformers = .ok (data, i + j ≠ 0) := by
  induction h generalizing i with
  | nil => exact nomatch hid
  | @cons provider t providers transformers ht hrest ih =>
    rcases ht with ⟨htrue, -, rfl⟩ | ⟨hfalse, kind, keys, -, -, -, keyTransformers, -, rfl⟩
    · refine ⟨0, by simp [htrue], ?_⟩
      rw [not_congr isPrefixOf_iff_prefix] at hplain
      simp [transformFrom, newEncryptCheckTransformer, hplain]
    · rw [any_cons, hfalse, Bool.false_or] at hid
      obtain ⟨j, -, hread⟩ := ih hid (i + 1)
      refine ⟨j + 1, by simp [hfalse], ?_⟩
      have hother : (bytes kind.transformerPrefixV1).isPrefixOf data = false := by
        refine eq_false_iff.mpr fun hprefix => hplain ?_
        obtain ⟨rest, rfl⟩ := isPrefixOf_iff_prefix.mp hprefix
        exact isPrefixOf_enc kind rest
      rw [transformFrom, if_neg (Bool.eq_false_iff.mp hother), hread, Nat.add_right_comm, Nat.add_assoc]

end
end Reading

/-! ### Writing -/

section Writing
variable {lib : Libraries} {ciphers : Ciphers} {providers : List ProviderConfiguration}
  {transformers : List PrefixTransformer} {random data context stored : Bytes}

theorem forall₂_ofProvider (hkms : ∀ provider ∈ providers, provider.kms = none) :
    getPrefixTransformers lib ciphers providers = .ok transformers ↔
      List.Forall₂ (OfProvider lib ciphers) providers transformers := by
  rw [getPrefixTransformers, mapM_ok_iff]
  induction providers generalizing transformers with
  | nil => rw [forall₂_nil_left_iff, forall₂_nil_left_iff]
  | cons provider _ ih =>
    simp only [forall₂_cons_left_iff, getPrefixTransformer_ok_iff (hkms provider mem_cons_self),
      ih fun provider hprov => hkms provider (mem_cons_of_mem _ hprov)]

section
variable (h : List.Forall₂ (OfProvider lib ciphers) providers transformers)
include h

theorem write_identity (hfirst : Writer.isFirst lib providers .identity = true)
    (hwrite : (resourceTransformer transformers).transformToStorage random data context = .ok stored) :
    stored = data := by
  cases h with
  | nil => exact nomatch hfirst
  | cons ht =>
    rcases ht with ⟨-, -, rfl⟩ | ⟨hfalse, -⟩
    · exact (ok.inj hwrite).symm
    · rw [Writer.isFirst, head?_cons, any_some, hfalse] at hfirst
      exact nomatch hfirst

theorem write_key {kind : Kind} {name : String}
    {secret body : Bytes} (hfirst : Writer.isFirst lib providers (.key kind name secret) = true) :
    (resourceTransformer transformers).transformToStorage random data context =
        .ok ((Writer.key kind name secret).stored body) ↔
      (ciphers kind secret).transformToStorage random data context = .ok body := by
  cases h with
  | nil => exact nomatch hfirst
  | @cons provider t providers transformers ht _ =>
    rw [Writer.isFirst, head?_cons, bind_some] at hfirst
    rcases ht with ⟨-, hnone, rfl⟩ | ⟨-, kind', keys, hkeys, hothers, -, keyTransformers, hforall, rfl⟩
    · rw [hnone] at hfirst
      exact nomatch hfirst
    · have hkind : kind' = kind := by
        by_contra hne
        rw [hothers kind fun heq => hne heq.symm] at hfirst
        exact nomatch hfirst
      subst hkind
      rw [hkeys, bind_some] at hfirst
      cases hforall with
      | nil => exact nomatch hfirst
      | @cons key t keys keyTransformers hkey _ =>
        rw [head?_cons, any_some, is, and_eq_true, decide_eq_true_eq, decide_eq_true_eq] at hfirst
        obtain ⟨rfl, hdec⟩ := hfirst
        obtain ⟨secret', hdec', -, rfl⟩ := hkey
        cases hdec.symm.trans hdec'
        simp only [resourceTransformer, newPrefixTransformers, Writer.stored, bind, Except.bind]
        cases (ciphers kind' secret).transformToStorage random data context with
        | error | ok => simp

end
end Writing

/-! ### Ciphers that fail -/

noncomputable def injectiveCiphers (write : Bytes × Bytes → Bytes) : Ciphers := fun _ key =>
  open Classical in
  { transformFromStorage := fun stored _ =>
      if h : ∃ data, write (key, data) = stored then .ok (h.choose, false)
      else .error (.error "cipher: message authentication failed")
    transformToStorage := fun _ data _ => .ok (write (key, data)) }

variable {write : Bytes × Bytes → Bytes}

theorem injectiveCiphers_read {kind : Kind} {key stored context data : Bytes} {stale : Bool}
    (h : (injectiveCiphers write kind key).transformFromStorage stored context = .ok (data, stale)) :
    write (key, data) = stored := by
  simp only [injectiveCiphers] at h
  split_ifs at h with hex
  cases h
  exact hex.choose_spec

theorem injectiveCiphers_lawful (hinj : write.Injective) : Lawful (injectiveCiphers write) := by
  constructor
  · intro kind key random data context stored h
    have hstored : write (key, data) = stored := ok.inj h
    have hex : ∃ data, write (key, data) = stored := ⟨data, hstored⟩
    have hchoose : hex.choose = data := by
      have heq := hinj (hex.choose_spec.trans hstored.symm)
      exact (Prod.mk.inj heq).2
    simp only [injectiveCiphers]
    rw [dif_pos hex, hchoose]
  · intro kind _ key key' hne random data context stored h
    have hstored : write (key, data) = stored := ok.inj h
    refine ⟨_, dif_neg ?_⟩
    rintro ⟨data', hdata'⟩
    exact hne (Prod.mk.inj (hinj (hdata'.trans hstored.symm))).1

theorem exists_write (secret body : Bytes) (bound : Nat) : ∃ write : Bytes × Bytes → Bytes, write.Injective ∧
    write (secret, []) = body ∧ ∀ key, key ≠ secret → bound < (write (key, [])).length := by
  have htoNat : Function.Injective UInt8.toNat := fun _ _ => UInt8.toNat_inj.mp
  have hbyte : Countable UInt8 := htoNat.countable
  obtain ⟨f, hf⟩ := exists_injective_nat (Bytes × Bytes)
  refine ⟨fun p => if p = (secret, []) then body else body ++ replicate (bound + f p + 1) 0, ?_, if_pos rfl, ?_⟩
  · intro p q hpq
    simp only at hpq
    split_ifs at hpq with hp hq hq
    · exact hp.trans hq.symm
    · have hlen := congrArg length hpq
      simp at hlen
    · have hlen := congrArg length hpq
      simp at hlen
    · have hlen := congrArg length hpq
      simp only [length_append, length_replicate] at hlen
      exact hf (by omega)
  · intro key hne
    have hpair : (key, ([] : Bytes)) ≠ (secret, []) := fun h => hne (Prod.mk.inj h).1
    simp only [if_neg hpair, length_append, length_replicate]
    omega

/-! ### Key rotation -/

section Rotation
variable {lib : Libraries} {old new : List ProviderConfiguration}

theorem atIndex_ok {i : Nat} {result : Except Fault (Bytes × Bool)} {data : Bytes} {stale : Bool}
    (h : atIndex i result = .ok (data, stale)) : ∃ stale', result = .ok (data, stale') := by
  cases result with
  | error => exact nomatch h
  | ok result =>
    cases h
    exact ⟨result.2, rfl⟩

variable {body : Bytes} {name : String} {secret : Bytes} {kind : Kind}

theorem not_isFirst {keys : List Key} {key : Key} {j j' : Nat}
    (hkeys : (new.findSome? fun provider => provider.keys kind) = some keys)
    (hkey : keys.find? (begins (bytes (name ++ ":") ++ body)) = some key) (his : key.is lib name secret)
    (hj : j = 0 ↔ (new.head?.bind fun provider => provider.keys kind) = some keys)
    (hj' : j' = 0 ↔ keys.head? = some key) :
    (!Writer.isFirst lib new (.key kind name secret)) = (decide (j' ≠ 0) || decide (j ≠ 0)) := by
  rw [Writer.isFirst]
  cases hhead : new.head?.bind fun provider => provider.keys kind with
  | none =>
    have hne : j ≠ 0 := fun h => nomatch hhead.symm.trans (hj.mp h)
    simp [hne]
  | some first =>
    have hfirst : first = keys := by
      cases new with
      | nil => exact nomatch hhead
      | cons =>
        rw [head?_cons, bind_some] at hhead
        rw [findSome?_cons, hhead] at hkeys
        exact some.inj hkeys
    subst hfirst
    have hzero : j = 0 := hj.mpr hhead
    rw [bind_some]
    by_cases hzero' : j' = 0
    · rw [hj'.mp hzero', any_some, his]
      simp [hzero, hzero']
    · cases first with
      | nil => exact nomatch hkey
      | cons first =>
        have hnot : first.is lib name secret = false := by
          refine eq_false_iff.mpr fun hfirst => hzero' (hj'.mpr ?_)
          rw [is, and_eq_true, decide_eq_true_eq] at hfirst
          have hbegins : first.begins (bytes (name ++ ":") ++ body) = true := by
            rw [begins, hfirst.1, isPrefixOf_iff_prefix]
            exact prefix_append _ _
          rw [find?_cons_of_pos hbegins] at hkey
          rw [head?_cons, hkey]
        simp [hnot, hzero']

section
variable (hold : ∀ provider ∈ old, provider.kms = none) (hnew : ∀ provider ∈ new, provider.kms = none)
include hold hnew

theorem recovered_identity (hfirst : Writer.isFirst lib old .identity = true)
    (hin : Writer.isIn lib new .identity = true) (stored : Bytes) : Recovered lib old new .identity stored := by
  intro ciphers _ oldTransformers newTransformers hwriter hreader random data context hwrite hplain
  cases write_identity ((forall₂_ofProvider hold).mp hwriter) hfirst hwrite
  obtain ⟨j, hj, hread⟩ := read_identity ((forall₂_ofProvider hnew).mp hreader) hin (hplain rfl) 0
  refine hread.trans ?_
  rw [Nat.zero_add, Writer.isFirst]
  simp [hj]

theorem recovered_of_isReached (hfirst : Writer.isFirst lib old (.key kind name secret) = true)
    (hreached : Writer.isReached lib new body (.key kind name secret) = true) :
    Recovered lib old new (.key kind name secret) ((Writer.key kind name secret).stored body) := by
  intro ciphers hlawful oldTransformers newTransformers hwriter hreader random data context hwrite _
  rw [write_key ((forall₂_ofProvider hold).mp hwriter) hfirst] at hwrite
  obtain ⟨keys, hkeys, hany⟩ := (Option.any_eq_true ..).mp hreached
  obtain ⟨key, hkey, his⟩ := (Option.any_eq_true ..).mp hany
  obtain ⟨keyTransformers, j, hforall, hj, hread⟩ :=
    read_providers ((forall₂_ofProvider hnew).mp hreader) hkeys (bytes (name ++ ":") ++ body) 0
  obtain ⟨secret', rest, j', hdec', hdata, hj', hinner⟩ := read_keys_some hforall hkey 0
  have hname := his
  rw [is, and_eq_true, decide_eq_true_eq, decide_eq_true_eq] at hname
  cases hname.2.symm.trans hdec'
  rw [hname.1] at hdata
  cases append_cancel_left hdata
  refine hread.trans ?_
  rw [hinner, hlawful.inverts kind secret random data context body hwrite, not_isFirst hkeys hkey his hj hj']
  simp [atIndex, Except.map]

variable (haccepted : ∃ ciphers transformers, getPrefixTransformers lib ciphers old = .ok transformers)
  (haccepted' : ∃ ciphers transformers, getPrefixTransformers lib ciphers new = .ok transformers)
include haccepted haccepted'

theorem isReached_of_recovered (hfirst : Writer.isFirst lib old (.key kind name secret) = true)
    (hin : Writer.isIn lib new (.key kind name secret) = true)
    (hrecovered : Recovered lib old new (.key kind name secret) ((Writer.key kind name secret).stored body)) :
    Writer.isReached lib new body (.key kind name secret) = true := by
  -- ciphers under which only the right key reads the body, and nothing else reads as the empty value
  obtain ⟨write, hinj, hbody, hlong⟩ := exists_write secret body (bytes (name ++ ":") ++ body).length
  obtain ⟨ciphers, transformers, hok⟩ := haccepted
  obtain ⟨oldTransformers, hwriter⟩ := getPrefixTransformers_ok hold hok (injectiveCiphers write)
  obtain ⟨ciphers', transformers', hok'⟩ := haccepted'
  obtain ⟨newTransformers, hreader⟩ := getPrefixTransformers_ok hnew hok' (injectiveCiphers write)
  have hwrite : (resourceTransformer oldTransformers).transformToStorage [] [] [] =
      .ok ((Writer.key kind name secret).stored body) := by
    rw [write_key ((forall₂_ofProvider hold).mp hwriter) hfirst]
    exact congrArg Except.ok hbody
  have hres := hrecovered _ (injectiveCiphers_lawful hinj) _ _ hwriter hreader [] [] [] hwrite fun h => nomatch h
  obtain ⟨keys, hkeys⟩ : ∃ keys, (new.findSome? fun provider => provider.keys kind) = some keys := by
    rw [← isSome_iff_exists, findSome?_isSome_iff]
    obtain ⟨provider, hprov, hany⟩ := any_eq_true.mp hin
    obtain ⟨keys, hkeys, -⟩ := (Option.any_eq_true ..).mp hany
    exact ⟨provider, hprov, by rw [hkeys]; rfl⟩
  obtain ⟨keyTransformers, j, hforall, -, hread⟩ :=
    read_providers ((forall₂_ofProvider hnew).mp hreader) hkeys (bytes (name ++ ":") ++ body) 0
  obtain ⟨stale, hinner⟩ := atIndex_ok (hread.symm.trans hres)
  cases hkey : keys.find? (begins (bytes (name ++ ":") ++ body)) with
  | none => exact nomatch hinner.symm.trans (read_keys_none hforall hkey 0)
  | some key =>
    obtain ⟨secret', rest, j', hdec, hdata, -, hcipher⟩ := read_keys_some hforall hkey 0
    obtain ⟨stale', hcipher⟩ := atIndex_ok (hcipher.symm.trans hinner)
    have hrest := injectiveCiphers_read hcipher
    have hsecret : secret' = secret := by
      by_contra hne
      have hlen := congrArg length hdata
      have hbound := hlong secret' hne
      rw [hrest] at hbound
      simp only [length_append] at hlen hbound
      omega
    subst hsecret
    rw [hbody] at hrest
    subst hrest
    have hname : key.name = name :=
      (String.append_left_inj ":").mp (bytes_inj (append_cancel_right hdata)).symm
    rw [Writer.isReached, hkeys, any_some, hkey, any_some, is, and_eq_true, decide_eq_true_eq, decide_eq_true_eq]
    exact ⟨hname, hdec⟩

/-- A stored value is read back, whatever the ciphers, exactly if its key is reached. -/
theorem recovered_iff_isReached
    {writer : Writer} (hfirst : writer.isFirst lib old = true) (hin : writer.isIn lib new = true) (body : Bytes) :
    Recovered lib old new writer (writer.stored body) ↔ writer.isReached lib new body = true := by
  cases writer with
  | identity => exact ⟨fun _ => rfl, fun _ => recovered_identity hold hnew hfirst hin body⟩
  | key =>
    exact ⟨isReached_of_recovered hold hnew haccepted haccepted' hfirst hin, recovered_of_isReached hold hnew hfirst⟩

end
end Rotation

def twoSecrets : Libraries where
  decodeString secret :=
    if secret = "c2VjcmV0IGlzIHNlY3VyZQ==" then .ok (bytes "secret is secure")
    else if secret = "dGhpcyBpcyBwYXNzd29yZA==" then .ok (bytes "this is password")
    else .error "illegal base64 data at input byte 0"
  envelopeServiceFactory _ := .error "context deadline exceeded"
  newEnvelopeTransformer _ := .error "Must provide a positive size"

def key1 : Key := ⟨"key1", "c2VjcmV0IGlzIHNlY3VyZQ=="⟩
def key2 : Key := ⟨"key2", "dGhpcyBpcyBwYXNzd29yZA=="⟩

/-- A key is rotated in the list of its provider. -/
theorem recovered_iff_isReached_rotated :
    ∃ body, Recovered twoSecrets [{ aescbc := some [key1] }] [{ aescbc := some [key2, key1] }]
      (.key .aescbc "key1" (bytes "secret is secure"))
      ((Writer.key .aescbc "key1" (bytes "secret is secure")).stored body) := by
  refine ⟨[1, 2, 3], (recovered_iff_isReached ?_ ?_ ?_ ?_ ?_ ?_ _).mpr ?_⟩
  · simp
  · simp
  · exact ⟨fun _ _ => nilTransformer, _, rfl⟩
  · exact ⟨fun _ _ => nilTransformer, _, rfl⟩
  · decide +kernel
  · decide +kernel
  · decide +kernel

/-- A key is rotated by a new provider of the same kind before the old one: the old one is never asked. -/
theorem rotated_provider_lost : ∃ old new : List ProviderConfiguration, ∃ writer : Writer, ∃ body : Bytes,
      (∃ ciphers transformers, getPrefixTransformers twoSecrets ciphers old = .ok transformers) ∧
      (∃ ciphers transformers, getPrefixTransformers twoSecrets ciphers new = .ok transformers) ∧
      writer.isFirst twoSecrets old = true ∧ writer.isIn twoSecrets new = true ∧
      ¬ Recovered twoSecrets old new writer (writer.stored body) := by
  have hold : ∃ ciphers transformers,
      getPrefixTransformers twoSecrets ciphers [{ aescbc := some [key1] }] = .ok transformers :=
    ⟨fun _ _ => nilTransformer, _, rfl⟩
  have hnew : ∃ ciphers transformers, getPrefixTransformers twoSecrets ciphers
      [{ aescbc := some [key2] }, { aescbc := some [key1] }] = .ok transformers :=
    ⟨fun _ _ => nilTransformer, _, rfl⟩
  refine ⟨[{ aescbc := some [key1] }], [{ aescbc := some [key2] }, { aescbc := some [key1] }],
    .key .aescbc "key1" (bytes "secret is secure"), [1, 2, 3], hold, hnew, by decide +kernel, by decide +kernel, ?_⟩
  intro hrecovered
  have hreached := isReached_of_recovered (by simp) (by simp) hold hnew (by decide +kernel)
    (by decide +kernel) hrecovered
  exact absurd hreached (by decide +kernel)

end LeanKube.Encryption
