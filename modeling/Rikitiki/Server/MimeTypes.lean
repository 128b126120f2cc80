import Rikitiki.Http.TypeTable
import Rikitiki.Server.StaticContent

/-!
# The types of static files

`StaticContentHandler::Handle` looks the extension of a file up in `mime_types`, a map of the handler in which
the look-up enters what is not there, and hands the text it finds to `ContentType::FromString`, whose map
belongs to the whole program. The type that comes out of it is sent under its own name. Neither map answers
differently later, so the table says the truth about the extensions that are bound to the name of a type, and
about no other.
-/

namespace Rikitiki

/-- The map `mime_types`. -/
abbrev MimeTypes := StringMap

structure TypeMaps where
  mimeTypes : MimeTypes
  types : TypeTable

/-- What is done with the maps: a request is handled, or `FromString` is called elsewhere. -/
inductive MapUse where
  | handle (request : Request)
  | fromString (type : Str)

def sentHeaders (actions : List Action) : List Header :=
  actions.filterMap fun action =>
    match action with
    | .stream op => op.toHeader?
    | .streamRef op => op.toHeader?
    | _ => none

def MimeTypes.builtIn : MimeTypes := (∅ : MimeTypes).insertMany mimeTypes

namespace StaticContentHandler

variable (h : StaticContentHandler)

def extension (relpath : Str) : Option Str :=
  if dot ∈ relpath then some (relpath.rtakeWhile fun b => b ≠ dot) else none

/-- The variable `mime` of `Handle`. -/
def lookupMime (table : MimeTypes) (relpath : Str) : Str × MimeTypes :=
  match extension relpath with
  | some ext => table.lookup ext
  | none => (lit "text/html", table)

/-- `ContentType::FromString(mime)`, with the maps it finds and the ones it leaves. -/
def contentType (maps : TypeMaps) (request : Request) : ContentType × TypeMaps :=
  let (mime, mimeTypes) := lookupMime maps.mimeTypes (h.relpath request)
  let (type, types) := TypeTable.fromString maps.types mime
  (type, ⟨mimeTypes, types⟩)

def serve (files : Str → Option Str) (request : Request) (ctx : ConnContext) (type : ContentType) :
    List Action × Ending :=
  let op := Op.field (.contentType type)
  match ((ctx.after [.handle]).response.stream op).error with
  | some error => ([.handle, .streamRef op], .throws (.other error))
  | none =>
    match files (h.opened request) with
    | none => ([.handle, .streamRef op], .returns false)
    | some data => ([.handle, .streamRef op, .handle, .streamRef (.payload data)], .returns true)

/-- `StaticContentHandler::Handle` -/
def handle (files : Str → Option Str) (maps : TypeMaps) (request : Request) (ctx : ConnContext) :
    (List Action × Ending) × TypeMaps :=
  let (type, maps) := h.contentType maps request
  (h.serve files request ctx type, maps)

def use (maps : TypeMaps) : MapUse → ContentType × TypeMaps
  | .handle request => h.contentType maps request
  | .fromString type =>
    let (type, types) := TypeTable.fromString maps.types type
    (type, { maps with types })

/-- The maps behind a history of uses, of which `mime_types` is `table` at first. -/
def afterUses (table : MimeTypes) (history : List MapUse) : TypeMaps :=
  (Machine.run h.use ⟨table, ∅⟩ history).2

def bound (table : MimeTypes) (relpath : Str) : Option Str := (extension relpath).bind fun ext => table[ext]?

/-- The type that a table has for a file. -/
def configured (table : MimeTypes) (relpath : Str) : Str := (bound table relpath).getD (lit "text/html")

/-- `Handle` sends the type that the table has for the file. -/
def ServesConfigured (table : MimeTypes) (history : List MapUse) (files : Str → Option Str) (request : Request)
    (ctx : ConnContext) : Prop :=
  sentHeaders (h.handle files (h.afterUses table history) request ctx).1.1
    = [⟨lit "Content-Type", configured table (h.relpath request)⟩]

/-! ### The maps later on -/

/-- Maps in which every look-up finds what it finds in `table`, and what it finds without any table. -/
structure Answers (table : MimeTypes) (maps : TypeMaps) : Prop where
  mime : ∀ ext, maps.mimeTypes.find ext = table.find ext
  types : maps.types.Valid

theorem lookupMime_spec {table current : MimeTypes} (hsame : ∀ ext, current.find ext = table.find ext)
    (relpath : Str) :
    (lookupMime current relpath).1 = (lookupMime table relpath).1 ∧
      ∀ ext, (lookupMime current relpath).2.find ext = table.find ext := by
  rw [lookupMime, lookupMime]
  cases extension relpath with
  | none => exact ⟨rfl, hsame⟩
  | some ext =>
      constructor
      · rw [StringMap.lookup_fst, StringMap.lookup_fst, hsame]
      · intro other
        rw [StringMap.find_lookup, hsame]

theorem contentType_spec {table : MimeTypes} {maps : TypeMaps} (hmaps : Answers table maps) (request : Request) :
    (h.contentType maps request).1 = ContentType.fromString (lookupMime table (h.relpath request)).1 ∧
      Answers table (h.contentType maps request).2 := by
  obtain ⟨hmime, hlater⟩ := lookupMime_spec hmaps.mime (h.relpath request)
  obtain ⟨htype, hvalid⟩ := TypeTable.fromString_spec hmaps.types
    (lookupMime maps.mimeTypes (h.relpath request)).1
  exact ⟨htype.trans (by rw [hmime]), hlater, hvalid⟩

theorem answers_afterUses (table : MimeTypes) (history : List MapUse) :
    Answers table (h.afterUses table history) := by
  have hstep : ∀ maps use, Answers table maps →
      (h.use maps use).1 = (match use with
        | .handle request => ContentType.fromString (lookupMime table (h.relpath request)).1
        | .fromString type => ContentType.fromString type) ∧ Answers table (h.use maps use).2 := by
    intro maps use hmaps
    cases use with
    | handle request => exact h.contentType_spec hmaps request
    | fromString type =>
        obtain ⟨htype, hvalid⟩ := TypeTable.fromString_spec hmaps.types type
        exact ⟨htype, hmaps.mime, hvalid⟩
  have hstart : Answers table ⟨table, ∅⟩ := ⟨fun _ => rfl, .inl rfl⟩
  exact (Machine.run_of_invariant hstep hstart history).2

theorem contentType_afterUses (table : MimeTypes) (history : List MapUse) (request : Request) :
    (h.contentType (h.afterUses table history) request).1
      = ContentType.fromString (lookupMime table (h.relpath request)).1 :=
  (h.contentType_spec (h.answers_afterUses table history) request).1

theorem sentHeaders_serve (files : Str → Option Str) (request : Request) (ctx : ConnContext) (type : ContentType) :
    sentHeaders (h.serve files request ctx type).1 = [type.header] := by
  simp only [serve]
  split
  · rfl
  · split
    · rfl
    · rfl

/-- **The header of a file** depends on no use of the maps. -/
theorem sentHeaders_handle (table : MimeTypes) (history : List MapUse) (files : Str → Option Str)
    (request : Request) (ctx : ConnContext) :
    sentHeaders (h.handle files (h.afterUses table history) request ctx).1.1
      = [⟨lit "Content-Type", (ContentType.fromString (lookupMime table (h.relpath request)).1).toString⟩] := by
  rw [← h.contentType_afterUses table history request]
  exact h.sentHeaders_serve files request ctx _

/-! ### The table of the constructor -/

theorem find_builtIn (ext : Str) : MimeTypes.builtIn.find ext = (mimeTypes.lookup ext).getD [] := by
  have hdistinct := distinct_of_nodup (show (mimeTypes.map Prod.fst).Nodup by decide +kernel)
  rw [StringMap.find, MimeTypes.builtIn]
  cases hlookup : mimeTypes.lookup ext with
  | some mime =>
      have hmem : (ext, mime) ∈ mimeTypes := by
        obtain ⟨front, back, hsplit, -⟩ := List.lookup_eq_some_iff.mp hlookup
        rw [hsplit]
        simp
      rw [Std.ExtTreeMap.getElem?_insertMany_list_of_mem Std.ReflCmp.compare_self hdistinct hmem]
  | none =>
      have habsent : (mimeTypes.map Prod.fst).contains ext = false := by
        rw [List.lookup_eq_none_iff] at hlookup
        rw [List.contains_eq_any_beq, List.any_eq_false]
        intro name hname
        obtain ⟨entry, hentry, rfl⟩ := List.mem_map.mp hname
        simpa using hlookup entry hentry
      rw [Std.ExtTreeMap.getElem?_insertMany_list_of_contains_eq_false habsent]
      simp

/-- **The handler without maps** is the one whose table the constructor has filled, behind any uses. -/
theorem object_handle (files : Str → Option Str) (history : List MapUse) (request : Request) (ctx : ConnContext) :
    (h.object files).handle request ctx
      = (h.handle files (h.afterUses MimeTypes.builtIn history) request ctx).1 := by
  have hmime : mime (h.relpath request) = (lookupMime MimeTypes.builtIn (h.relpath request)).1 := by
    rw [mime, lookupMime, extension]
    split
    · rw [StringMap.lookup_fst, find_builtIn]
    · rfl
  have htype := h.contentType_afterUses MimeTypes.builtIn history request
  rw [← hmime] at htype
  have hserve : (h.handle files (h.afterUses MimeTypes.builtIn history) request ctx).1
      = h.serve files request ctx (h.contentType (h.afterUses MimeTypes.builtIn history) request).1 := rfl
  rw [hserve, htype]
  rfl

/-! ### Which types are served -/

theorem toString_fromString_iff (type : Str) :
    (ContentType.fromString type).toString = type ↔ ∃ t ∈ ContentType.types, t.toString = type := by
  constructor
  · intro hname
    by_contra hnone
    have hother : ∀ t ∈ ContentType.types, t.toString ≠ type := fun t ht heq => hnone ⟨t, ht, heq⟩
    by_cases hempty : type = []
    · rw [hempty, ContentType.fromString, if_pos rfl] at hname
      exact absurd hname (by decide)
    · rw [TypeTable.fromString_of_not_name hempty hother] at hname
      exact hother .applicationAtomXml (by decide) hname
  · rintro ⟨t, ht, rfl⟩
    rw [TypeTable.fromString_toString ht]

theorem toString_lookupMime (table : MimeTypes) (relpath : Str) :
    (ContentType.fromString (lookupMime table relpath).1).toString
      = ((bound table relpath).map fun mime => (ContentType.fromString mime).toString).getD (lit "text/html") := by
  rw [lookupMime, bound]
  cases extension relpath with
  | none => exact (toString_fromString_iff _).mpr ⟨.textHtml, by decide, rfl⟩
  | some ext =>
      simp only [StringMap.lookup, Option.bind_some]
      cases table[ext]? with
      | none =>
          have hdefault : (ContentType.fromString []).toString = lit "text/html" := by decide
          exact hdefault
      | some mime => rfl

/-- **The type of the table is sent** exactly if the extension, where it is bound, is bound to the name of a
type. An extension that is missing or not bound is always taken for HTML. -/
theorem servesConfigured_iff (table : MimeTypes) (history : List MapUse) (files : Str → Option Str)
    (request : Request) (ctx : ConnContext) :
    h.ServesConfigured table history files request ctx ↔
      ∀ mime, bound table (h.relpath request) = some mime → ∃ t ∈ ContentType.types, t.toString = mime := by
  rw [ServesConfigured, sentHeaders_handle, toString_lookupMime, configured]
  cases bound table (h.relpath request) with
  | none => simp
  | some mime =>
      rw [Option.map_some, Option.getD_some, Option.getD_some]
      simp [toString_fromString_iff]

/-- A script is sent as a feed. -/
theorem not_forall_servesConfigured :
    ¬ ∀ (h : StaticContentHandler) (table : MimeTypes) (history : List MapUse) (files : Str → Option Str)
      (request : Request) (ctx : ConnContext), h.ServesConfigured table history files request ctx := by
  intro hall
  have hsent := hall siteFiles MimeTypes.builtIn [] (fun _ => none) ⟨.get, lit "/static/a.js", by decide⟩ {}
  have hfeed : sentHeaders ((siteFiles.object fun _ => none).handle ⟨.get, lit "/static/a.js", by decide⟩ {}).1
      = [⟨lit "Content-Type", lit "application/atom+xml"⟩] := by decide +kernel
  have hbound : bound MimeTypes.builtIn (siteFiles.relpath ⟨.get, lit "/static/a.js", by decide⟩)
      = some (lit "application/x-javascript") := by decide +kernel
  rw [ServesConfigured, ← object_handle, hfeed, configured, hbound] at hsent
  exact absurd hsent (by decide)

end StaticContentHandler

end Rikitiki
