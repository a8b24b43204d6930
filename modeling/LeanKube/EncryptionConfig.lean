import Mathlib.Data.List.Basic

/-! Encryption at rest: the prefix transformers of `storage/value`, and how `encryptionconfig` builds them from
a list of providers. The keyed transformers are parameters. -/

namespace LeanKube.Encryption

abbrev Bytes := List UInt8

def bytes (s : String) : Bytes := s.toByteArray.data.toList

/-! ### Transformers -/

inductive Fault where
  | error (text : String)
  | panic (text : String)
deriving DecidableEq

/-- `value.Transformer`, for the authenticated data of a context; a write has the random bytes that it reads. -/
structure Transformer where
  transformFromStorage (data context : Bytes) : Except Fault (Bytes × Bool)
  transformToStorage (random data context : Bytes) : Except Fault Bytes

structure PrefixTransformer where
  bytePrefix : Bytes
  transformer : Transformer

/-- The loop of `prefixTransformers.TransformFromStorage`, at index `i`: an error ends it, unless the prefix is
empty. -/
def transformFrom (err : String) (data context : Bytes) : Nat → List PrefixTransformer → Except Fault (Bytes × Bool)
  | _, [] => .error (.error err)
  | i, transformer :: rest =>
    if transformer.bytePrefix.isPrefixOf data then
      match transformer.transformer.transformFromStorage (data.drop transformer.bytePrefix.length) context with
      | .ok (result, stale) => .ok (result, stale || i ≠ 0)
      | .error (.error e) =>
        if transformer.bytePrefix.length = 0 then transformFrom err data context (i + 1) rest
        else .error (.error e)
      | .error (.panic e) => .error (.panic e)
    else transformFrom err data context (i + 1) rest

def newPrefixTransformers (err : Option String) (transformers : List PrefixTransformer) : Transformer where
  transformFromStorage data context :=
    transformFrom (err.getD "the provided value does not match any of the supported transformers") data context 0
      transformers
  transformToStorage random data context :=
    match transformers with
    | [] => .error (.panic "runtime error: index out of range")
    | transformer :: _ => do
      let result ← transformer.transformer.transformToStorage random data context
      .ok (transformer.bytePrefix ++ result)

def newEncryptCheckTransformer : Transformer where
  transformFromStorage data _ :=
    if (bytes "k8s:enc:").isPrefixOf data then .error (.error "identity transformer tried to read encrypted data")
    else .ok (data, false)
  transformToStorage _ data _ := .ok data

def nilTransformer : Transformer where
  transformFromStorage _ _ := .error (.panic "runtime error: invalid memory address or nil pointer dereference")
  transformToStorage _ _ _ := .error (.panic "runtime error: invalid memory address or nil pointer dereference")

/-! ### Providers -/

structure Key where
  name : String
  secret : String
deriving DecidableEq

structure KMSConfiguration where
  name : String
  cacheSize : Int
  endpoint : String
deriving DecidableEq

structure ProviderConfiguration where
  aesgcm : Option (List Key) := none
  aescbc : Option (List Key) := none
  secretbox : Option (List Key) := none
  identity : Bool := false
  kms : Option KMSConfiguration := none
deriving DecidableEq

inductive Kind where
  | aesgcm
  | aescbc
  | secretbox
deriving DecidableEq

abbrev Ciphers := Kind → Bytes → Transformer

/-- `aesGCMTransformerPrefixV1`, `aesCBCTransformerPrefixV1` and `secretboxTransformerPrefixV1`. -/
def Kind.transformerPrefixV1 : Kind → String
  | aesgcm => "k8s:enc:aesgcm:v1:"
  | aescbc => "k8s:enc:aescbc:v1:"
  | secretbox => "k8s:enc:secretbox:v1:"

def kmsTransformerPrefixV1 : String := "k8s:enc:kms:v1:"

/-- What is called in other packages: base 64, and the service and the transformer of a KMS plugin. -/
structure Libraries where
  decodeString : String → Except String Bytes
  envelopeServiceFactory : (endpoint : String) → Except String Unit
  newEnvelopeTransformer : (cacheSize : Int) → Except String Transformer

variable (lib : Libraries) (ciphers : Ciphers)

def checkKey (key : Key) : Except String Unit :=
  if key.name = "" then .error "key with invalid name provided"
  else if key.secret = "" then .error ("key " ++ key.name ++ " has no provided secret")
  else .ok ()

variable (kind : Kind)

/-- The prefix transformer of one key, with the check that its kind has on the decoded key. -/
def keyTransformer (checkSize : Key → Bytes → Except String Unit) (keyData : Key) : Except String PrefixTransformer :=
  match lib.decodeString keyData.secret with
  | .error err => .error ("could not obtain secret for named key " ++ keyData.name ++ ": " ++ err)
  | .ok key => do
    checkSize keyData key
    .ok ⟨bytes (keyData.name ++ ":"), ciphers kind key⟩

def getKeysPrefixTransformer (provider transformer : String)
    (checkSize : Key → Bytes → Except String Unit) (keys : List Key) : Except String PrefixTransformer := do
  if keys.length = 0 then .error (provider ++ " provider has no valid keys")
  keys.forM checkKey
  let keyTransformers ← keys.mapM (keyTransformer lib ciphers kind checkSize)
  .ok ⟨bytes kind.transformerPrefixV1, newPrefixTransformers
    (some ("no matching key was found for the provided " ++ transformer ++ " transformer")) keyTransformers⟩

def checkAESKey (keyData : Key) (key : Bytes) : Except String Unit :=
  if key.length = 16 ∨ key.length = 24 ∨ key.length = 32 then .ok ()
  else .error ("error while creating cipher for named key " ++ keyData.name ++ ": crypto/aes: invalid key size " ++
    toString key.length)

def checkSecretboxKey (_keyData : Key) (key : Bytes) : Except String Unit :=
  if key.length ≠ 32 then .error ("expected key size 32 for secretbox provider, got " ++ toString key.length)
  else .ok ()

def getAESPrefixTransformer : List Key → Except String PrefixTransformer :=
  getKeysPrefixTransformer lib ciphers kind "aes" "AES" checkAESKey

def getSecretboxPrefixTransformer : List Key → Except String PrefixTransformer :=
  getKeysPrefixTransformer lib ciphers .secretbox "secretbox" "Secretbox" checkSecretboxKey

variable (config : KMSConfiguration)

def getEnvelopePrefixTransformer (kmsPrefix : String) :
    Except String PrefixTransformer := do
  let envelopeTransformer ← lib.newEnvelopeTransformer config.cacheSize
  .ok ⟨bytes (kmsPrefix ++ config.name ++ ":"), envelopeTransformer⟩

def moreThanOneProvider : String :=
  "more than one provider specified in a single element, should split into different list elements"

/-- A branch of the loop that finds its provider after others: `found` is the transformer of an earlier one,
or the error that is not returned yet. -/
def orElseProvider {α : Type} (found : Option (Except String PrefixTransformer)) (provider : Option α)
    (get : α → Except String (Except String PrefixTransformer)) :
    Except String (Option (Except String PrefixTransformer)) :=
  match provider with
  | none => .ok found
  | some config =>
    if found.isSome then .error moreThanOneProvider
    else do
      let transformer ← get config
      .ok (some transformer)

/-- The branch for a KMS plugin. The error of `getEnvelopePrefixTransformer` is assigned to a variable of the
branch and lost: the transformer is then the zero value. -/
def getKMSTransformer : Except String (Except String PrefixTransformer) :=
  if config.endpoint.length = 0 then .error "remote KMS provider can't use empty string as endpoint"
  else
    match lib.envelopeServiceFactory config.endpoint with
    | .error err => .error ("could not configure KMS plugin \"" ++ config.name ++ "\", error: " ++ err)
    | .ok () =>
      match getEnvelopePrefixTransformer lib config kmsTransformerPrefixV1 with
      | .error _ => .ok (.ok ⟨[], nilTransformer⟩)
      | .ok transformer => .ok (.ok transformer)

def getPrefixTransformer (provider : ProviderConfiguration) : Except String PrefixTransformer := do
  let found ← orElseProvider none provider.aesgcm fun keys =>
    (getAESPrefixTransformer lib ciphers .aesgcm keys).map .ok
  let found ← orElseProvider found provider.aescbc fun keys => .ok (getAESPrefixTransformer lib ciphers .aescbc keys)
  let found ← orElseProvider found provider.secretbox fun keys => .ok (getSecretboxPrefixTransformer lib ciphers keys)
  let found ← orElseProvider found (if provider.identity then some () else none) fun _ =>
    .ok (.ok ⟨[], newEncryptCheckTransformer⟩)
  let found ← orElseProvider found provider.kms (getKMSTransformer lib)
  match found with
  | none => .error "invalid provider configuration: at least one provider must be specified"
  | some transformer => transformer

def getPrefixTransformers (providers : List ProviderConfiguration) : Except String (List PrefixTransformer) :=
  providers.mapM (getPrefixTransformer lib ciphers)

def resourceTransformer (transformers : List PrefixTransformer) : Transformer :=
  newPrefixTransformers (some "no matching prefix found") transformers

end LeanKube.Encryption
