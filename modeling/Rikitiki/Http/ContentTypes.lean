import Rikitiki.Base.Bytes

/-!
# Content types
-/

namespace Rikitiki

/-- `ContentType::t`, in the order of the enumeration. -/
inductive ContentType where
  | default | all | applicationAtomXml | applicationEcmascript | applicationEDIX12
  | applicationEDIFACT | applicationJson | applicationJavascript | applicationOctetStream
  | applicationOgg | applicationPdf | applicationPostscript | applicationRdfXml
  | applicationRssXml | applicationSoapXml | applicationFontWoff | applicationXhtmlXml
  | applicationXml | applicationXmlDtd | applicationXopXml | applicationZip | applicationGzip
  | audioBasic | audioL24 | audioMp4 | audioMpeg | audioOgg | audioVorbis | audioVndRnRealaudio
  | audioVndWave | audioWebm | imageGif | imageJpeg | imagePjpeg | imagePng | imageSvgXml
  | imageTiff | imageVndMicrosoftIcon | messageHttp | messageImdnXml | messagePartial
  | messageRfc822 | modelExample | modelIges | modelMesh | modelVrml | modelX3dBinary
  | modelX3dVrml | modelX3dXml | multipartMixed | multipartAlternative | multipartRelated
  | multipartFormData | multipartSigned | multipartEncrypted | textCmd | textCss | textCsv
  | textHtml | textJavascript | textPlain | textVcard | textXml | videoMpeg | videoMp4 | videoOgg
  | videoQuicktime | videoWebm | videoXMatroska | videoXMsWmv | videoXFlv | max
  deriving DecidableEq, Repr

/-- `ContentType::ToString`. `DEFAULT` falls through to `text_html`. -/
def ContentType.toString : ContentType → Str
  | .default => lit "text/html"
  | .all => lit "*/*"
  | .applicationAtomXml => lit "application/atom+xml"
  | .applicationEcmascript => lit "application/ecmascript"
  | .applicationEDIX12 => lit "application/EDI-X12"
  | .applicationEDIFACT => lit "application/EDIFACT"
  | .applicationJson => lit "application/json"
  | .applicationJavascript => lit "application/javascript"
  | .applicationOctetStream => lit "application/octet-stream"
  | .applicationOgg => lit "application/ogg"
  | .applicationPdf => lit "application/pdf"
  | .applicationPostscript => lit "application/postscript"
  | .applicationRdfXml => lit "application/rdf+xml"
  | .applicationRssXml => lit "application/rss+xml"
  | .applicationSoapXml => lit "application/soap+xml"
  | .applicationFontWoff => lit "application/font-woff"
  | .applicationXhtmlXml => lit "application/xhtml+xml"
  | .applicationXml => lit "application/xml"
  | .applicationXmlDtd => lit "application/xml-dtd"
  | .applicationXopXml => lit "application/xop+xml"
  | .applicationZip => lit "application/zip"
  | .applicationGzip => lit "application/gzip"
  | .audioBasic => lit "audio/basic"
  | .audioL24 => lit "audio/L24"
  | .audioMp4 => lit "audio/mp4"
  | .audioMpeg => lit "audio/mpeg"
  | .audioOgg => lit "audio/ogg"
  | .audioVorbis => lit "audio/vorbis"
  | .audioVndRnRealaudio => lit "audio/vnd-rn-realaudio"
  | .audioVndWave => lit "audio/vnd-wave"
  | .audioWebm => lit "audio/webm"
  | .imageGif => lit "image/gif"
  | .imageJpeg => lit "image/jpeg"
  | .imagePjpeg => lit "image/pjpeg"
  | .imagePng => lit "image/png"
  | .imageSvgXml => lit "image/svg+xml"
  | .imageTiff => lit "image/tiff"
  | .imageVndMicrosoftIcon => lit "image/vnd-microsoft-icon"
  | .messageHttp => lit "message/http"
  | .messageImdnXml => lit "message/imdn+xml"
  | .messagePartial => lit "message/partial"
  | .messageRfc822 => lit "message/rfc822"
  | .modelExample => lit "model/example"
  | .modelIges => lit "model/iges"
  | .modelMesh => lit "model/mesh"
  | .modelVrml => lit "model/vrml"
  | .modelX3dBinary => lit "model/x3d+binary"
  | .modelX3dVrml => lit "model/x3d+vrml"
  | .modelX3dXml => lit "model/x3d+xml"
  | .multipartMixed => lit "multipart/mixed"
  | .multipartAlternative => lit "multipart/alternative"
  | .multipartRelated => lit "multipart/related"
  | .multipartFormData => lit "multipart/form-data"
  | .multipartSigned => lit "multipart/signed"
  | .multipartEncrypted => lit "multipart/encrypted"
  | .textCmd => lit "text/cmd"
  | .textCss => lit "text/css"
  | .textCsv => lit "text/csv"
  | .textHtml => lit "text/html"
  | .textJavascript => lit "text/javascript"
  | .textPlain => lit "text/plain"
  | .textVcard => lit "text/vcard"
  | .textXml => lit "text/xml"
  | .videoMpeg => lit "video/mpeg"
  | .videoMp4 => lit "video/mp4"
  | .videoOgg => lit "video/ogg"
  | .videoQuicktime => lit "video/quicktime"
  | .videoWebm => lit "video/webm"
  | .videoXMatroska => lit "video/x-matroska"
  | .videoXMsWmv => lit "video/x-ms-wmv"
  | .videoXFlv => lit "video/x-flv"
  | .max => lit "unknown"

/-- The types from `ALL` to `MAX`, in the order in which `FromString` enters them in its map. -/
def ContentType.types : List ContentType :=
  [.all, .applicationAtomXml, .applicationEcmascript, .applicationEDIX12, .applicationEDIFACT,
    .applicationJson, .applicationJavascript, .applicationOctetStream, .applicationOgg,
    .applicationPdf, .applicationPostscript, .applicationRdfXml, .applicationRssXml,
    .applicationSoapXml, .applicationFontWoff, .applicationXhtmlXml, .applicationXml,
    .applicationXmlDtd, .applicationXopXml, .applicationZip, .applicationGzip, .audioBasic,
    .audioL24, .audioMp4, .audioMpeg, .audioOgg, .audioVorbis, .audioVndRnRealaudio, .audioVndWave,
    .audioWebm, .imageGif, .imageJpeg, .imagePjpeg, .imagePng, .imageSvgXml, .imageTiff,
    .imageVndMicrosoftIcon, .messageHttp, .messageImdnXml, .messagePartial, .messageRfc822,
    .modelExample, .modelIges, .modelMesh, .modelVrml, .modelX3dBinary, .modelX3dVrml,
    .modelX3dXml, .multipartMixed, .multipartAlternative, .multipartRelated, .multipartFormData,
    .multipartSigned, .multipartEncrypted, .textCmd, .textCss, .textCsv, .textHtml,
    .textJavascript, .textPlain, .textVcard, .textXml, .videoMpeg, .videoMp4, .videoOgg,
    .videoQuicktime, .videoWebm, .videoXMatroska, .videoXMsWmv, .videoXFlv]

/-- `ContentType::FromString`. A string that the map does not have is entered as the type with the value
zero. -/
def ContentType.fromString (type : Str) : ContentType :=
  if type = [] then .default
  else (ContentType.types.reverse.find? fun t => t.toString = type).getD .applicationAtomXml

theorem ContentType.nul_notMem_toString (t : ContentType) : nul ∉ t.toString := by
  cases t <;> decide +kernel

end Rikitiki
