import Zzdwm.Lib.Numerals

/-!
# The endpoint of the assistant (`ai.c`)

`ai_configure` takes an endpoint apart and stores its parts one after the other, each one
before the next one is looked at.

* `endpointParts` — the host, the port and the path of a text;
* `aiConfigure` — what is stored, and the error;
* `configure_atomic_iff` — **all of the configuration or nothing**, exactly if nothing that was
  stored before the check that fails is new.
-/

namespace Ai

open Ascii (Byte bytes isAlnum isDigit isSpace)
open Numerals (strtol)

def AI_ERROR_SIZE : Nat := 160
def AI_HOST_SIZE : Nat := 128
def AI_PATH_SIZE : Nat := 256
def AI_API_KEY_SIZE : Nat := 256
def AI_REASONING_EFFORT_SIZE : Nat := 32

def slash : Byte := 0x2F
def colon : Byte := 0x3A

/-- The strings that are configured, each in its array. -/
@[ext]
structure Config where
  host : List Byte
  port : Int
  path : List Byte
  apiKey : List Byte
  reasoningEffort : List Byte
  hostFits : host.length < AI_HOST_SIZE
  pathFits : path.length < AI_PATH_SIZE
  keyFits : apiKey.length < AI_API_KEY_SIZE
  effortFits : reasoningEffort.length < AI_REASONING_EFFORT_SIZE
deriving DecidableEq

structure State where
  error : List Byte
  config : Config
deriving DecidableEq

/-- `ai_valid_host`. -/
def aiValidHost (host : List Byte) : Bool :=
  host.all fun b => isAlnum b || b = 0x2E || b = 0x2D || b = 0x5F

/-- `ai_valid_header_value`. -/
def aiValidHeaderValue (value : List Byte) : Bool := value.all fun b => 0x21 ≤ b && b ≤ 0x7E

/-- `ai_set_error`. -/
def aiSetError (s : State) (text : String) : State :=
  { s with error := (bytes text).take (AI_ERROR_SIZE - 1) }

/-- The host and the port; `authority` stands in front of the path. -/
def authorityParts (authority path : List Byte) : Except String (List Byte × Int) :=
  if colon ∈ authority then
    let text := (authority.dropWhile (· ≠ colon)).drop 1
    if text = [] then .error "AI endpoint port is empty"
    else
      let (value, rest) := strtol (text ++ path)
      if rest ≠ path ∨ value ≤ 0 ∨ 65535 < value then .error "AI endpoint port is invalid"
      else .ok (authority.takeWhile (· ≠ colon), value)
  else .ok (authority, 80)

/-- The host, the port and the path, or what is wrong with the endpoint up to its port. -/
def endpointParts : Option (List Byte) → Except String (List Byte × Int × List Byte)
  | none => .error "AI endpoint is empty"
  | some endpoint =>
      if endpoint = [] then .error "AI endpoint is empty"
      else if bytes "https://" <+: endpoint then .error "HTTPS AI endpoints are not supported"
      else if ¬ bytes "http://" <+: endpoint then .error "AI endpoint must start with http://"
      else
        let rest := endpoint.drop 7
        let path := rest.dropWhile (· ≠ slash)
        match authorityParts (rest.takeWhile (· ≠ slash)) path with
        | .error text => .error text
        | .ok (host, port) => .ok (host, port, if path = [] then bytes "/" else path)

/-- `ai_configure`.  The port is stored before the host is looked at, the host before the path,
and the path before the key. -/
def aiConfigure (s : State) (endpoint apiKey : Option (List Byte)) : Bool × State :=
  let s := { s with error := [] }
  match endpointParts endpoint with
  | .error text => (false, aiSetError s text)
  | .ok (host, port, path) =>
      let s := { s with config := { s.config with port := port } }
      if hhost : host = [] ∨ AI_HOST_SIZE ≤ host.length ∨ aiValidHost host = false then
        (false, aiSetError s "AI endpoint host is invalid")
      else
        let s := { s with config := { s.config with host := host, hostFits := by omega } }
        if hpath : path.head? ≠ some slash ∨ AI_PATH_SIZE ≤ path.length ∨
            aiValidHeaderValue path = false then
          (false, aiSetError s "AI endpoint path is invalid")
        else
          let s := { s with config := { s.config with path := path, pathFits := by omega } }
          let key := apiKey.getD []
          if hkey : AI_API_KEY_SIZE ≤ key.length then
            (false, aiSetError s "AI API key is too long")
          else if aiValidHeaderValue key = false then
            (false, aiSetError s "AI API key is invalid")
          else
            (true, { s with config := { s.config with
              apiKey := key
              keyFits := by omega
              reasoningEffort := []
              effortFits := by decide } })

/-! ## The checks -/

def HostOk (host : List Byte) : Prop :=
  host ≠ [] ∧ host.length < AI_HOST_SIZE ∧ aiValidHost host = true

def PathOk (path : List Byte) : Prop :=
  path.head? = some slash ∧ path.length < AI_PATH_SIZE ∧ aiValidHeaderValue path = true

def KeyOk (key : List Byte) : Prop := key.length < AI_API_KEY_SIZE ∧ aiValidHeaderValue key = true

instance : DecidablePred HostOk := fun _ => inferInstanceAs (Decidable (_ ∧ _ ∧ _))
instance : DecidablePred PathOk := fun _ => inferInstanceAs (Decidable (_ ∧ _ ∧ _))
instance : DecidablePred KeyOk := fun _ => inferInstanceAs (Decidable (_ ∧ _))

theorem not_hostOk {host : List Byte} :
    ¬ HostOk host ↔ host = [] ∨ AI_HOST_SIZE ≤ host.length ∨ aiValidHost host = false := by
  unfold HostOk
  rw [Classical.not_and_iff_not_or_not, Classical.not_and_iff_not_or_not, Classical.not_not,
    Nat.not_lt, Bool.not_eq_true]

theorem not_pathOk {path : List Byte} :
    ¬ PathOk path ↔
      path.head? ≠ some slash ∨ AI_PATH_SIZE ≤ path.length ∨ aiValidHeaderValue path = false := by
  unfold PathOk
  rw [Classical.not_and_iff_not_or_not, Classical.not_and_iff_not_or_not, Nat.not_lt,
    Bool.not_eq_true]

theorem not_keyOk {key : List Byte} :
    ¬ KeyOk key ↔ AI_API_KEY_SIZE ≤ key.length ∨ aiValidHeaderValue key = false := by
  unfold KeyOk
  rw [Classical.not_and_iff_not_or_not, Nat.not_lt, Bool.not_eq_true]

/-- The fields of a configuration. -/
def Config.Holds (c : Config) (host : List Byte) (port : Int) (path apiKey effort : List Byte) :
    Prop :=
  c.host = host ∧ c.port = port ∧ c.path = path ∧ c.apiKey = apiKey ∧ c.reasoningEffort = effort

theorem Config.Holds.eq_iff {c d : Config} {host path apiKey effort : List Byte} {port : Int}
    (h : c.Holds host port path apiKey effort) :
    c = d ↔ d.Holds host port path apiKey effort := by
  obtain ⟨rfl, rfl, rfl, rfl, rfl⟩ := h
  rw [Config.ext_iff]
  unfold Config.Holds
  simp only [eq_comm]

/-! ## What is stored -/

variable {s : State} {endpoint apiKey : Option (List Byte)} {host path : List Byte} {port : Int}

theorem aiConfigure_early {text : String} (h : endpointParts endpoint = .error text) :
    (aiConfigure s endpoint apiKey).1 = false ∧
      (aiConfigure s endpoint apiKey).2.config = s.config := by
  unfold aiConfigure
  rw [h]
  exact ⟨rfl, rfl⟩

/-- The host is not one: the port is stored. -/
theorem aiConfigure_host (h : endpointParts endpoint = .ok (host, port, path))
    (hhost : ¬ HostOk host) :
    (aiConfigure s endpoint apiKey).1 = false ∧
      (aiConfigure s endpoint apiKey).2.config.Holds s.config.host port s.config.path
        s.config.apiKey s.config.reasoningEffort := by
  unfold aiConfigure
  rw [h]
  dsimp only
  rw [dif_pos (not_hostOk.mp hhost)]
  exact ⟨rfl, rfl, rfl, rfl, rfl, rfl⟩

/-- The path is not one: the port and the host are stored. -/
theorem aiConfigure_path (h : endpointParts endpoint = .ok (host, port, path)) (hhost : HostOk host)
    (hpath : ¬ PathOk path) :
    (aiConfigure s endpoint apiKey).1 = false ∧
      (aiConfigure s endpoint apiKey).2.config.Holds host port s.config.path
        s.config.apiKey s.config.reasoningEffort := by
  unfold aiConfigure
  rw [h]
  dsimp only
  rw [dif_neg (not_hostOk.not.mp (not_not.mpr hhost)), dif_pos (not_pathOk.mp hpath)]
  exact ⟨rfl, rfl, rfl, rfl, rfl, rfl⟩

/-- The key is not one: all but the key is stored. -/
theorem aiConfigure_key (h : endpointParts endpoint = .ok (host, port, path)) (hhost : HostOk host)
    (hpath : PathOk path) (hkey : ¬ KeyOk (apiKey.getD [])) :
    (aiConfigure s endpoint apiKey).1 = false ∧
      (aiConfigure s endpoint apiKey).2.config.Holds host port path
        s.config.apiKey s.config.reasoningEffort := by
  unfold aiConfigure
  rw [h]
  dsimp only
  rw [dif_neg (not_hostOk.not.mp (not_not.mpr hhost)),
    dif_neg (not_pathOk.not.mp (not_not.mpr hpath))]
  by_cases hlong : AI_API_KEY_SIZE ≤ (apiKey.getD []).length
  · rw [dif_pos hlong]
    exact ⟨rfl, rfl, rfl, rfl, rfl, rfl⟩
  · rw [dif_neg hlong, if_pos ((not_keyOk.mp hkey).resolve_left hlong)]
    exact ⟨rfl, rfl, rfl, rfl, rfl, rfl⟩

theorem aiConfigure_ok (h : endpointParts endpoint = .ok (host, port, path)) (hhost : HostOk host)
    (hpath : PathOk path) (hkey : KeyOk (apiKey.getD [])) :
    (aiConfigure s endpoint apiKey).1 = true ∧
      (aiConfigure s endpoint apiKey).2.config.Holds host port path (apiKey.getD []) [] := by
  unfold aiConfigure
  rw [h]
  dsimp only
  obtain ⟨hlong, hinvalid⟩ := not_or.mp (not_keyOk.not.mp (not_not.mpr hkey))
  rw [dif_neg (not_hostOk.not.mp (not_not.mpr hhost)),
    dif_neg (not_pathOk.not.mp (not_not.mpr hpath)),
    dif_neg hlong, if_neg hinvalid]
  exact ⟨rfl, rfl, rfl, rfl, rfl, rfl⟩

/-! ## The parts of an endpoint -/

/-- The text of a port: blanks, a plus sign perhaps, and digits. -/
def PortText (text : List Byte) (port : Int) : Prop :=
  ∃ blanks plus digits, text = blanks ++ (plus ++ digits) ∧ (∀ b ∈ blanks, isSpace b = true) ∧
    (plus = [] ∨ plus = [0x2B]) ∧ digits ≠ [] ∧ (∀ b ∈ digits, isDigit b = true) ∧
    (Ascii.value digits : Int) = port

/-- `http://`, the host, a colon and the port perhaps, and the path. -/
structure IsEndpoint (endpoint host : List Byte) (port : Int) (path : List Byte) : Prop where
  text : ∃ portPart pathPart, endpoint = bytes "http://" ++ (host ++ (portPart ++ pathPart)) ∧
    (portPart = [] ∧ port = 80 ∨
      ∃ text, portPart = colon :: text ∧ slash ∉ text ∧ PortText text port) ∧
    (pathPart = [] ∧ path = bytes "/" ∨ pathPart.head? = some slash ∧ path = pathPart)
  host : colon ∉ host ∧ slash ∉ host
  port : 0 < port ∧ port ≤ 65535

theorem authorityParts_ok {authority : List Byte} (hslash : slash ∉ authority)
    (h : authorityParts authority path = .ok (host, port)) :
    (∃ portPart, authority = host ++ portPart ∧
      (portPart = [] ∧ port = 80 ∨
        ∃ text, portPart = colon :: text ∧ slash ∉ text ∧ PortText text port)) ∧
      (colon ∉ host ∧ slash ∉ host) ∧ 0 < port ∧ port ≤ 65535 := by
  unfold authorityParts at h
  split at h
  next hcolon =>
    obtain ⟨c, text, hc⟩ := List.exists_cons_of_ne_nil
      (l := authority.dropWhile (· ≠ colon)) fun hnil => by
        have hall := List.dropWhile_eq_nil_iff.mp hnil colon hcolon
        simp at hall
    have hhead : c = colon := by
      have hnot := List.head?_dropWhile_not (· ≠ colon) authority
      rw [hc] at hnot
      simpa using hnot
    have hsplit := List.takeWhile_append_dropWhile (p := (· ≠ colon)) (l := authority)
    rw [hc, hhead] at hsplit
    rw [hc, List.drop_one, List.tail_cons] at h
    dsimp only at h
    split at h
    · cases h
    split at h
    · cases h
    next hok =>
      obtain ⟨hrest, hpos⟩ := not_or.mp hok
      obtain ⟨hpos, hlimit⟩ := not_or.mp hpos
      obtain ⟨rfl, hport⟩ := Prod.mk.inj (Except.ok.inj h)
      rw [Classical.not_not] at hrest
      rw [hport] at hpos hlimit
      obtain ⟨blanks, plus, digits, htext, hblanks, hplus, hne, hdigits, hvalue⟩ :=
        Numerals.strtol_positive (s := text ++ path) (Prod.ext hport hrest) (by omega) (by omega)
      have hport : text = blanks ++ (plus ++ digits) := by
        refine (List.append_cancel_right_eq _ path _).mp ?_
        rw [htext]
        simp only [List.append_assoc]
      refine ⟨⟨colon :: text, hsplit.symm, Or.inr ⟨text, rfl, fun hmem => hslash ?_,
        blanks, plus, digits, hport, hblanks, hplus, hne, hdigits, hvalue⟩⟩, ⟨?_, ?_⟩, by omega,
        by omega⟩
      · rw [← hsplit]
        exact List.mem_append_right _ (List.mem_cons_of_mem _ hmem)
      · intro hmem
        simpa using List.mem_takeWhile_imp hmem
      · exact fun hmem => hslash ((List.takeWhile_prefix _).subset hmem)
  next hcolon =>
    cases h
    exact ⟨⟨[], (List.append_nil _).symm, Or.inl ⟨rfl, rfl⟩⟩, ⟨hcolon, hslash⟩, by omega, by omega⟩

/-- What is parsed are the parts of the endpoint. -/
theorem endpointParts_ok (h : endpointParts endpoint = .ok (host, port, path)) :
    ∃ text, endpoint = some text ∧ IsEndpoint text host port path := by
  cases endpoint with
  | none => cases h
  | some endpoint =>
      refine ⟨endpoint, rfl, ?_⟩
      rw [endpointParts] at h
      split at h
      · cases h
      split at h
      · cases h
      split at h
      · cases h
      next hhttp =>
        obtain ⟨rest, rfl⟩ := Classical.not_not.mp hhttp
        have hdrop : (bytes "http://" ++ rest).drop 7 = rest :=
          List.drop_left' (by decide)
        rw [hdrop] at h
        dsimp only at h
        have hslash : slash ∉ rest.takeWhile (· ≠ slash) := fun hmem => by
          simpa using List.mem_takeWhile_imp hmem
        split at h
        · cases h
        next host port hparts =>
          obtain ⟨⟨portPart, hauthority, hportPart⟩, hhost, hport⟩ :=
            authorityParts_ok hslash hparts
          cases h
          refine ⟨⟨portPart, rest.dropWhile (· ≠ slash), ?_, hportPart, ?_⟩, hhost, hport⟩
          · rw [← List.append_assoc _ portPart, ← hauthority, List.takeWhile_append_dropWhile]
          · split
            next hnil => exact Or.inl ⟨hnil, rfl⟩
            next hne =>
              refine Or.inr ⟨?_, rfl⟩
              obtain ⟨b, pathPart, hpath⟩ := List.exists_cons_of_ne_nil hne
              have hnot := List.head?_dropWhile_not (· ≠ slash) rest
              rw [hpath] at hnot ⊢
              simpa using hnot

/-! ## All or nothing -/

/-- A call that fails leaves the configuration as it was; one that does not stores the parts of
its endpoint, and its key. -/
def Atomic (s : State) (endpoint apiKey : Option (List Byte)) : Prop :=
  ((aiConfigure s endpoint apiKey).1 = false →
      (aiConfigure s endpoint apiKey).2.config = s.config) ∧
    ((aiConfigure s endpoint apiKey).1 = true →
      ∃ text host port path, endpoint = some text ∧ IsEndpoint text host port path ∧
        (aiConfigure s endpoint apiKey).2.config.Holds host port path (apiKey.getD []) [])

/-- The endpoint and the key pass all checks, or what is stored before the check that fails is what
was configured. -/
def Settled (c : Config) (endpoint apiKey : Option (List Byte)) : Prop :=
  match endpointParts endpoint with
  | .error _ => True
  | .ok (host, port, path) =>
      HostOk host ∧ PathOk path ∧ KeyOk (apiKey.getD []) ∨
        c.port = port ∧ (¬ HostOk host ∨ c.host = host ∧ (¬ PathOk path ∨ c.path = path))

/-- **All of the configuration or nothing**: if and only if nothing new is stored before a check
that fails. -/
theorem configure_atomic_iff (s : State) (endpoint apiKey : Option (List Byte)) :
    Atomic s endpoint apiKey ↔ Settled s.config endpoint apiKey := by
  unfold Atomic Settled
  cases hparts : endpointParts endpoint with
  | error text =>
      obtain ⟨hresult, hconfig⟩ := @aiConfigure_early s endpoint apiKey text hparts
      simp [hresult, hconfig]
  | ok parts =>
      obtain ⟨host, port, path⟩ := parts
      dsimp only
      by_cases hhost : HostOk host
      · by_cases hpath : PathOk path
        · by_cases hkey : KeyOk (apiKey.getD [])
          · obtain ⟨hresult, hholds⟩ := aiConfigure_ok (s := s) hparts hhost hpath hkey
            obtain ⟨text, htext, hendpoint⟩ := endpointParts_ok hparts
            refine iff_of_true ⟨fun hfalse => ?_, fun _ => ?_⟩ (Or.inl ⟨hhost, hpath, hkey⟩)
            · rw [hresult] at hfalse
              cases hfalse
            · exact ⟨text, host, port, path, htext, hendpoint, hholds⟩
          · obtain ⟨hresult, hholds⟩ := aiConfigure_key (s := s) hparts hhost hpath hkey
            simp [hresult, hholds.eq_iff, Config.Holds, hhost, hpath, hkey]
            tauto
        · obtain ⟨hresult, hholds⟩ :=
            @aiConfigure_path s endpoint apiKey host path port hparts hhost hpath
          simp [hresult, hholds.eq_iff, Config.Holds, hhost, hpath]
          tauto
      · obtain ⟨hresult, hholds⟩ := @aiConfigure_host s endpoint apiKey host path port hparts hhost
        simp [hresult, hholds.eq_iff, Config.Holds, hhost]

/-- The configuration that the program starts with. -/
def initial : State where
  error := []
  config := {
    host := bytes "127.0.0.1"
    port := 11434
    path := bytes "/api/generate"
    apiKey := []
    reasoningEffort := []
    hostFits := by decide
    pathFits := by decide
    keyFits := by decide
    effortFits := by decide }

/-- A key with a blank in it. -/
def blankCall : Bool × State :=
  aiConfigure initial (some (bytes "http://h:81/v1")) (some (bytes "a key"))

/-- The call fails, and the next request goes to another host. -/
theorem configure_atomic_blank :
    blankCall.1 = false ∧ blankCall.2.config.host = bytes "h" ∧
      ¬ Atomic initial (some (bytes "http://h:81/v1")) (some (bytes "a key")) := by
  have hfails : blankCall.1 = false := by decide
  have hhost : blankCall.2.config.host = bytes "h" := by decide
  refine ⟨hfails, hhost, fun hatomic => ?_⟩
  have hsame : blankCall.2.config = initial.config := hatomic.1 hfails
  rw [hsame] at hhost
  exact absurd hhost (by decide)

end Ai
