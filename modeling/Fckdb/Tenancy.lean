import Fckdb.Auth
import Fckdb.Store

/-! # Tenants and their keys

Every tenant's namespaces share one object store. The keys of a namespace start with its organisation
and its name, so what keeps tenants apart is that these prefixes do not overlap. They can: an
organisation is taken from the environment as it is, and the store's paths forget empty segments. -/

namespace Fckdb

/-! ## Paths -/

/-- An object key: its segments. -/
abbrev Path := List String

/-- `Path::from`: split at slashes, without the empty segments. The percent-encoding of a segment is
injective and left out. -/
def pathOf (s : String) : Path := (splitAt '/' s).filter (· ≠ "")

/-- `valid_namespace`. -/
def validNamespace (name : String) : Bool :=
  name ≠ "" && name.utf8ByteSize ≤ 64 &&
    name.toList.all fun c => c.isAlphanum || c == '-' || c == '_'

/-- `AppState::key`. -/
def appKey (org name : String) : String := "ns/" ++ org ++ "/" ++ name

def manifestPath (root : String) : Path := pathOf (root ++ "/manifest")

def subPath (root suffix : String) : Path := pathOf (root ++ "/" ++ suffix)

def Sub.text : Sub → String
  | .wal => "wal"
  | .data => "data"

def Ext.text : Ext → String
  | .bin => "bin"
  | .cen => "cen"
  | .clu => "clu"
  | .ids => "ids"
  | .att => "att"
  | .fts => "fts"
  | .spx => "spx"

/-- `{:010}`. -/
def pad10 (n : Nat) : String := .ofList ((n.repr.toList).leftpad 10 '0')

/-- An object's path under the namespace; `uuid` renders the UUID drawn for it. -/
def ObjectName.text (uuid : Nat → String) : ObjectName → String
  | .wal name => "wal/" ++ pad10 name.seq ++ "-" ++ uuid name.uuid ++ ".bin"
  | .data name => "data/" ++ uuid name.uuid ++ "." ++ name.ext.text

/-- `wal_path` or `data_path`. -/
def objectPath (uuid : Nat → String) (root : String) (name : ObjectName) : Path :=
  subPath root (name.text uuid)

/-! ## What a request touches -/

/-- The keys a request on the namespace `root` writes, lists, reads or deletes. What a listing turns up
may be deleted by its location. -/
def Request.Touches (uuid : Nat → String) (root : String) : Request → Path → Prop
  | .getManifest, key | .putManifest _ _ _, key | .deleteManifest, key => key = manifestPath root
  | .putNew path _, key => ∃ u, key = objectPath uuid root (path u)
  | .get name, key | .delete name, key => key = objectPath uuid root name
  | .list sub, key | .next sub, key => subPath root sub.text <+: key
  | .listAll, key | .nextAny, key => pathOf root <+: key
  | .now _, _ | .view _, _ | .remember _ _ _, _ | .forget _, _ | .choose, _ => False

/-- What a handler does for an organisation: a request on the namespace it was called for, or the copy
of a namespace to another of the same organisation. -/
inductive Endpoint
  | on (name : String) (request : Request)
  | branch (name dest : String)

namespace Endpoint

/-- The namespaces the caller names. -/
def names : Endpoint → List String
  | on name _ => [name]
  | branch name dest => [name, dest]

/-- The check of every handler. -/
def Valid (e : Endpoint) : Prop := ∀ name ∈ e.names, validNamespace name

def Touches (uuid : Nat → String) (org : String) : Endpoint → Path → Prop
  | on name request, key => request.Touches uuid (appKey org name) key
  | branch name dest, key =>
      key = manifestPath (appKey org name) ∨ key = manifestPath (appKey org dest) ∨
        ∃ o, key = objectPath uuid (appKey org name) o ∨ key = objectPath uuid (appKey org dest) o

end Endpoint

/-- The organisations of a token table. -/
def Auth.orgs (auth : Auth) : List String :=
  if auth.disabled then ["default"] else auth.tokens.map (·.2)

/-- **Tenant isolation**: what is done for an organisation touches no key under the prefix of a
namespace that the caller did not name. -/
def Isolated (uuid : Nat → String) (auth : Auth) : Prop :=
  ∀ org ∈ auth.orgs, ∀ e : Endpoint, e.Valid → ∀ org' ∈ auth.orgs, ∀ name', validNamespace name' →
    ¬ (org' = org ∧ name' ∈ e.names) →
      ∀ key, e.Touches uuid org key → ¬ pathOf (appKey org' name') <+: key

/-! ## Prefixes -/

theorem pathOf_append (s t : String) : pathOf (s ++ "/" ++ t) = pathOf s ++ pathOf t := by
  have hlist : (s ++ "/" ++ t).toList = s.toList ++ '/' :: t.toList := by
    rw [String.toList_append, String.toList_append, List.append_assoc]
    rfl
  rw [pathOf, splitAt, hlist, List.splitOn_append_cons_self, List.map_append, List.filter_append]
  rfl

theorem pathOf_eq_singleton {s : String} (hne : s ≠ "") (h : '/' ∉ s.toList) : pathOf s = [s] := by
  rw [pathOf, splitAt, List.splitOn_eq_singleton h, List.map_singleton, String.ofList_toList]
  simp [hne]

theorem slash_notMem_of_valid {name : String} (h : validNamespace name) : '/' ∉ name.toList := by
  intro hmem
  have hall := (Bool.and_eq_true_iff.mp h).2
  exact absurd (List.all_eq_true.mp hall _ hmem) (by decide)

theorem ne_empty_of_valid {name : String} (h : validNamespace name) : name ≠ "" := by
  rintro rfl
  exact absurd h (by decide)

theorem pathOf_appKey {org name : String} (h : validNamespace name) :
    pathOf (appKey org name) = "ns" :: (pathOf org ++ [name]) := by
  have hns : appKey org name = ("ns" ++ "/" ++ org) ++ "/" ++ name := rfl
  rw [hns, pathOf_append, pathOf_append,
    pathOf_eq_singleton (ne_empty_of_valid h) (slash_notMem_of_valid h),
    pathOf_eq_singleton (by decide) (by decide), List.singleton_append, List.cons_append]

theorem manifestPath_eq (root : String) : manifestPath root = pathOf root ++ ["manifest"] := by
  have hroot : root ++ "/manifest" = root ++ "/" ++ "manifest" := by
    rw [String.append_assoc]
    rfl
  have hmanifest : pathOf "manifest" = ["manifest"] := pathOf_eq_singleton (by decide) (by decide)
  rw [manifestPath, hroot, pathOf_append, hmanifest]

theorem isPrefix_subPath (root suffix : String) : pathOf root <+: subPath root suffix := by
  rw [subPath, pathOf_append]
  exact List.prefix_append _ _

/-- **A request stays under the prefix of its namespace.** -/
theorem Request.Touches.isPrefix {uuid : Nat → String} {root : String} {r : Request} {key : Path}
    (h : r.Touches uuid root key) : pathOf root <+: key := by
  cases r with
  | getManifest | putManifest | deleteManifest =>
      cases h
      exact manifestPath_eq root ▸ List.prefix_append _ _
  | putNew path blob =>
      obtain ⟨u, rfl⟩ := h
      exact isPrefix_subPath root _
  | get name | delete name =>
      cases h
      exact isPrefix_subPath root _
  | list sub | next sub => exact (isPrefix_subPath root _).trans h
  | listAll | nextAny => exact h
  | now | view | remember | forget | choose => exact h.elim

theorem Endpoint.Touches.isPrefix {uuid : Nat → String} {org : String} {e : Endpoint} {key : Path}
    (h : e.Touches uuid org key) : ∃ name ∈ e.names, pathOf (appKey org name) <+: key := by
  cases e with
  | on name request => exact ⟨name, List.mem_singleton_self _, Request.Touches.isPrefix h⟩
  | branch name dest =>
      have hmanifest (root : String) : pathOf root <+: manifestPath root :=
        manifestPath_eq root ▸ List.prefix_append _ _
      rcases h with rfl | rfl | ⟨o, rfl | rfl⟩
      · exact ⟨name, List.mem_cons_self, hmanifest _⟩
      · exact ⟨dest, List.mem_cons_of_mem _ List.mem_cons_self, hmanifest _⟩
      · exact ⟨name, List.mem_cons_self, isPrefix_subPath _ _⟩
      · exact ⟨dest, List.mem_cons_of_mem _ List.mem_cons_self, isPrefix_subPath _ _⟩

/-! ## Separate organisations -/

/-- The segments of one organisation neither equal those of the other nor start with them and a
namespace name. -/
def Separate (org org' : String) : Prop :=
  pathOf org ≠ pathOf org' ∧ ∀ name, validNamespace name → ¬ pathOf org ++ [name] <+: pathOf org'

theorem appKey_injective {orgs : List String} {org org' name name' : String}
    (hsep : ∀ org ∈ orgs, ∀ org' ∈ orgs, org ≠ org' → Separate org org') (horg : org ∈ orgs)
    (horg' : org' ∈ orgs) (hname : validNamespace name) (hname' : validNamespace name')
    (h : pathOf (appKey org name) <+: pathOf (appKey org' name')) : org = org' ∧ name = name' := by
  rw [pathOf_appKey hname, pathOf_appKey hname', List.cons_prefix_cons, and_iff_right rfl,
    List.prefix_concat_iff] at h
  rcases h with heq | hextends
  · obtain ⟨hpath, hnames⟩ := List.append_inj' heq rfl
    refine ⟨?_, List.singleton_inj.mp hnames⟩
    by_contra hne
    exact (hsep org horg org' horg' hne).1 hpath
  · by_cases hne : org = org'
    · subst hne
      have hlen := hextends.length_le
      rw [List.length_append, List.length_singleton] at hlen
      exact absurd hlen (Nat.not_succ_le_self _)
    · exact absurd hextends ((hsep org horg org' horg' hne).2 name hname)

/-- Two requests for the manifest tell overlapping prefixes apart. -/
theorem Isolated.separate {uuid : Nat → String} {auth : Auth} (h : Isolated uuid auth) {org org' : String}
    (horg : org ∈ auth.orgs) (horg' : org' ∈ auth.orgs) (hne : org ≠ org') : Separate org org' := by
  have ha : validNamespace "a" := by decide
  have hvalid : (Endpoint.on "a" .getManifest).Valid := fun name hname =>
    List.mem_singleton.mp hname ▸ ha
  constructor
  · intro hpath
    refine h org horg (.on "a" .getManifest) hvalid org' horg' "a" ha (fun hsame => hne hsame.1.symm)
      (manifestPath (appKey org "a")) rfl ?_
    rw [manifestPath_eq, pathOf_appKey ha, pathOf_appKey ha, hpath]
    exact List.prefix_append _ _
  · intro name hname hextends
    refine h org' horg' (.on "a" .getManifest) hvalid org horg name hname (fun hsame => hne hsame.1)
      (manifestPath (appKey org' "a")) rfl ?_
    rw [manifestPath_eq, pathOf_appKey ha, pathOf_appKey hname]
    have hrest : pathOf org' <+: pathOf org' ++ ["a"] ++ ["manifest"] :=
      (List.prefix_append _ _).trans (List.prefix_append _ _)
    exact List.cons_prefix_cons.mpr ⟨rfl, hextends.trans hrest⟩

/-- Separate organisations touch nothing of each other. -/
theorem isolated_of_separate {uuid : Nat → String} {auth : Auth}
    (hsep : ∀ org ∈ auth.orgs, ∀ org' ∈ auth.orgs, org ≠ org' → Separate org org') :
    Isolated uuid auth := by
  intro org horg e hvalid org' horg' name' hname' hother key htouches hunder
  obtain ⟨name, hname, hown⟩ := htouches.isPrefix
  rcases List.prefix_or_prefix_of_prefix hown hunder with h | h
  · obtain ⟨rfl, rfl⟩ := appKey_injective hsep horg horg' (hvalid name hname) hname' h
    exact hother ⟨rfl, hname⟩
  · obtain ⟨rfl, rfl⟩ := appKey_injective hsep horg' horg hname' (hvalid name hname) h
    exact hother ⟨rfl, hname⟩

/-- **Exactly when tenants are isolated**: their organisations have to be separate as paths. -/
theorem tenants_isolated_iff (uuid : Nat → String) (auth : Auth) :
    Isolated uuid auth ↔ ∀ org ∈ auth.orgs, ∀ org' ∈ auth.orgs, org ≠ org' → Separate org org' := by
  constructor
  · intro h org horg org' horg' hne
    exact h.separate horg horg' hne
  · exact isolated_of_separate

/-- What an operator has to see to: organisations that are one segment each. -/
theorem isolated_of_plain (uuid : Nat → String) {auth : Auth}
    (h : ∀ org ∈ auth.orgs, org ≠ "" ∧ '/' ∉ org.toList) : Isolated uuid auth := by
  refine isolated_of_separate fun org horg org' horg' hne => ?_
  have hpath : pathOf org = [org] := pathOf_eq_singleton (h org horg).1 (h org horg).2
  have hpath' : pathOf org' = [org'] := pathOf_eq_singleton (h org' horg').1 (h org' horg').2
  rw [Separate, hpath, hpath']
  constructor
  · exact fun heq => hne (List.singleton_inj.mp heq)
  · intro name _ hextends
    have hlen := hextends.length_le
    rw [List.length_append] at hlen
    exact absurd hlen (by simp)

/-- An organisation whose name continues another's by a slash lies in that one's namespace. -/
theorem nested_not_isolated :
    ¬ Isolated toString (.fromEnv ⟨some "t1:acme,t2:acme/docs", none⟩) := by
  intro h
  have hsep := @Isolated.separate _ _ h "acme" "acme/docs" (by decide) (by decide) (by decide)
  exact hsep.2 "docs" (by decide) (by decide)

end Fckdb
