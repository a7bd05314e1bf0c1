import ZeroServe.SimpleAgreement
import ZeroServe.RawAgreement
import ZeroServe.AcmeStore
import ZeroServe.Reload
import ZeroServe.TlsHandshake
import ZeroServe.ScriptJson
import ZeroServe.ClientAuth
import ZeroServe.JsonHandles
import ZeroServe.RateBounds
import ZeroServe.EchKey
import ZeroServe.ScriptHeaders
import ZeroServe.MatcherLiteral
import ZeroServe.RelayPayload
import ZeroServe.ProxyLimit
import ZeroServe.SiteRoutes
import ZeroServe.ClientIp
import ZeroServe.RewrittenFile
import ZeroServe.HostRoutes
import ZeroServe.BodyFraming
import ZeroServe.EncodedReply
import ZeroServe.AwsHeaders
import ZeroServe.CanonicalRedirect
import ZeroServe.ImportArgs
import ZeroServe.Ja4
import ZeroServe.LexerQuotes
import ZeroServe.LexerTracks
import ZeroServe.LoginRuns
import ZeroServe.RangeAnswers
import ZeroServe.ReplaySafety
import ZeroServe.Handoff
import ZeroServe.NumericCompare
import ZeroServe.RouteMerge
import ZeroServe.Segments
import ZeroServe.AccountKey
import ZeroServe.AcmeHttp
import ZeroServe.ChallengeCleanup
import ZeroServe.HexCodec
import ZeroServe.HupHooks
import ZeroServe.LiveCerts
