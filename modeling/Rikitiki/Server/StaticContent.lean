import Rikitiki.Library.Paths
import Rikitiki.Server.Dispatch

/-!
# Static content

`StaticContentHandler` answers the URIs with its prefix with the files of a directory. Which files there are
is `files`: the bytes of a file that can be opened.
-/

namespace Rikitiki

abbrev dot : Byte := 46
abbrev slash : Byte := 47

/-- `mime_types` as the constructor fills it. -/
def mimeTypes : List (Str × Str) :=
  [(lit "html", lit "text/html"), (lit "htm", lit "text/html"), (lit "js", lit "application/x-javascript"),
    (lit "css", lit "text/css"), (lit "ico", lit "image/x-icon"), (lit "gif", lit "image/gif"),
    (lit "jpg", lit "image/jpeg"), (lit "jpeg", lit "image/jpeg"), (lit "png", lit "image/png"),
    (lit "svg", lit "image/svg+xml"), (lit "txt", lit "text/plain"), (lit "xml", lit "text/xml"),
    (lit "json", lit "text/json"), (lit "xslt", lit "application/xml"), (lit "xsl", lit "application/xml"),
    (lit "ra", lit "audio/x-pn-realaudio"), (lit "doc", lit "application/msword"),
    (lit "exe", lit "application/octet-stream"), (lit "zip", lit "application/x-zip-compressed"),
    (lit "xls", lit "application/excel"), (lit "tgz", lit "application/x-tar-gz"),
    (lit "tar", lit "application/x-tar"), (lit "gz", lit "application/x-gunzip"),
    (lit "arj", lit "application/x-arj-compressed"), (lit "rar", lit "application/x-arj-compressed"),
    (lit "rtf", lit "application/rtf"), (lit "pdf", lit "application/pdf"),
    (lit "swf", lit "application/x-shockwave-flash"), (lit "mpg", lit "video/mpeg"),
    (lit "webm", lit "video/webm"), (lit "mpeg", lit "video/mpeg"), (lit "mp4", lit "video/mp4"),
    (lit "m4v", lit "video/x-m4v"), (lit "asf", lit "video/x-ms-asf"), (lit "avi", lit "video/x-msvideo"),
    (lit "bmp", lit "image/bmp")]

/-- The prefix of the URIs and the path that takes its place, which is the name of a directory. -/
structure StaticContentHandler where
  uriPrefix : Str
  path : Str
  path_free : nul ∉ path

namespace StaticContentHandler

variable (h : StaticContentHandler)

/-- What the URI of a request has behind the prefix. -/
def relpath (request : Request) : Str := request.uri.drop h.uriPrefix.length

def mime (relpath : Str) : Str :=
  if dot ∈ relpath then (mimeTypes.lookup (relpath.rtakeWhile fun b => b ≠ dot)).getD []
  else lit "text/html"

def opened (request : Request) : Str := h.path ++ h.relpath request

/-- `StaticContentHandler::CanHandle` -/
def canHandle (request : Request) : Bool :=
  if [dot, dot] <:+: request.uri then false
  else h.uriPrefix.length ≤ request.uri.length && h.uriPrefix.isPrefixOf request.uri

/-- `StaticContentHandler` as a handler. The type of the content is streamed before the file is opened. -/
def object (files : Str → Option Str) : HandlerObject Request where
  canHandle request := .ok (h.canHandle request)
  handle request ctx :=
    let type := Op.field (.contentType (.fromString (mime (h.relpath request))))
    match ((ctx.after [.handle]).response.stream type).error with
    | some error => ([.handle, .streamRef type], .throws (.other error))
    | none =>
      match files (h.opened request) with
      | none => ([.handle, .streamRef type], .returns false)
      | some data => ([.handle, .streamRef type, .handle, .streamRef (.payload data)], .returns true)

theorem based (files : Str → Option Str) : (h.object files).Based where
  total request := ⟨_, rfl⟩
  starts request ctx := by
    simp only [object]
    split
    · exact ⟨_, rfl⟩
    · split
      · exact ⟨_, rfl⟩
      · exact ⟨_, rfl⟩

/-! ### Where the files are -/

def posix : Paths.Style Byte := ⟨fun b => b == slash, dot, rfl⟩

theorem up_not_infix_relpath {request : Request} (hcan : h.canHandle request = true) :
    ¬ [dot, dot] <:+: h.relpath request := by
  intro hdots
  rw [canHandle, if_pos (hdots.trans (List.drop_suffix _ _).isInfix)] at hcan
  cases hcan

/-- **Static files stay in their directory** exactly if the last segment of its path and the first one behind
the prefix, which are put together without a separator, do not become another segment that leads elsewhere. -/
theorem served_inside_iff (P : Paths.Style Byte) (hdot : P.dot = dot) {request : Request}
    (hcan : h.canHandle request = true) :
    P.Inside (P.locate (h.opened request)) (P.locate h.path) ↔ P.StaysInside h.path (h.relpath request) := by
  apply P.inside_append_iff
  rw [Paths.Style.up, hdot]
  exact h.up_not_infix_relpath hcan

def siteFiles : StaticContentHandler := ⟨lit "/static/", lit "/srv/static/", by decide⟩

theorem inside_siteFiles :
    posix.Inside (posix.locate (siteFiles.opened ⟨.get, lit "/static/a", by decide⟩))
      (posix.locate siteFiles.path) :=
  (siteFiles.served_inside_iff posix rfl (by decide)).mpr ⟨by decide, .inr (.inl (by decide))⟩

/-- Without the separators the directory next to it is reached. -/
theorem not_forall_inside :
    ¬ ∀ (h : StaticContentHandler) (request : Request), h.canHandle request = true →
      posix.Inside (posix.locate (h.opened request)) (posix.locate h.path) := by
  intro hall
  have hcan : canHandle ⟨lit "/static", lit "/srv/static", by decide⟩
      ⟨.get, lit "/static-private/x", by decide⟩ = true := by decide
  have hup := up_not_infix_relpath _ hcan
  obtain ⟨-, hstays⟩ := (posix.inside_append_iff _ hup).mp (hall _ _ hcan)
  rcases hstays with hfirst | hlast | ⟨hlast, -⟩ | ⟨-, hlast | ⟨hlast, -⟩⟩
  · exact absurd hfirst (by decide)
  · exact absurd hlast (by decide)
  · exact absurd hlast (by decide)
  · exact absurd hlast (by decide)
  · exact absurd hlast (by decide)

end StaticContentHandler

end Rikitiki
