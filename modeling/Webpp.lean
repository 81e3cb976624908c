import Webpp.Storage.CacheValues
import Webpp.Storage.CacheLru
import Webpp.Http.RequestCookieJar
import Webpp.Http.SetCookieRoundTrip
import Webpp.Http.LogicalValves
import Webpp.Views.LineRendering
import Webpp.Views.SectionRendering
import Webpp.Storage.DirectoryIsolation
import Webpp.Http.CgiResponse
import Webpp.Http.SubRouter
import Webpp.Http.PathValves
import Webpp.Http.ValvesGroup
import Webpp.Uri.UriPartsGetters
import Webpp.Uri.PunycodesSafety
import Webpp.Db.InsertRuns
import Webpp.Db.QueryRuns
import Webpp.Uri.HostAuthorityContract
import Webpp.Uri.UriProgress
import Webpp.Uri.EndsInNumber
import Webpp.Unicode.CanonicalReorder
import Webpp.Unicode.CanonicalCompose
import Webpp.Uri.PresetUris
import Webpp.Uri.EncodingInPlace
import Webpp.Uri.EncodingRoundTrip
import Webpp.Uri.PathTraverser
import Webpp.Uri.PathEquality
import Webpp.Uri.PathIterator
import Webpp.Uri.DomainNames
import Webpp.Text.SplitInto
import Webpp.Text.TokenizerExpect
import Webpp.Unicode.HangulComposing
import Webpp.Uri.IdnaRecords
import Webpp.Ip.CanonicalText
import Webpp.Ip.Ipv4Ranges
import Webpp.Ip.Ipv6Masks
import Webpp.Ip.Ipv6Text
import Webpp.Ip.Subnets
import Webpp.Text.Trim
import Webpp.Text.Charsets
import Webpp.Http.AcceptEncodingList
import Webpp.Http.CookieAges
import Webpp.Http.ResponseCookieJar
import Webpp.Http.RequestLine
import Webpp.Uri.StatusIterator
import Webpp.Uri.SafelyIncIf
import Webpp.Storage.CacheIteration
import Webpp.Uri.TraverserCopies
import Webpp.Unicode.Utf8Reducer
import Webpp.Uri.ExtractQueries
import Webpp.Utils.VersionText
import Webpp.Views.ContextLookup
import Webpp.Uri.PortedHosts
import Webpp.Views.ViewManager
import Webpp.Uri.QueriesRendering
import Webpp.Text.Joining
import Webpp.Crypto.Base64Url
