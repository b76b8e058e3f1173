import WdHttp.PartialRun
import WdHttp.CText
import WdHttp.PosixFile
import WdHttp.MuploadServer
import WdHttp.MuploadHistory
import WdHttp.MuploadPlan
import WdHttp.MuploadProgress
import WdHttp.MuploadSoundness
import WdHttp.MuploadReplace
import WdHttp.MuploadClient
import WdHttp.MuploadIsolation
import WdHttp.FileUtil
import WdHttp.JsInt
import WdHttp.PageSha1
import WdHttp.CloudIdentity
import WdHttp.CloudAddressing
import WdHttp.CloudQueue
import WdHttp.UserSignin
import WdHttp.WritePaths
import WdHttp.CloudSql
import WdHttp.JsonDump
import WdHttp.CloudReplies
import WdHttp.MuploadRequest
import WdHttp.CloudAnswer
import WdHttp.FileStream
import WdHttp.UserToken
import WdHttp.MuploadMetadata
import WdHttp.RequestTarget
import WdHttp.StringDedup
import WdHttp.CppVector
import WdHttp.MultipartParser
import WdHttp.MultipartReading
import WdHttp.MultipartRefinement
import WdHttp.FirstOccurrence
import WdHttp.MultipartGrammar
import WdHttp.StrUtil
import WdHttp.MultipartForm
import WdHttp.MultipartEncoder
import WdHttp.MultipartStreaming
import WdHttp.PathTree
import WdHttp.PlainRoutes
import WdHttp.RouteTable
import WdHttp.BluePrint
import WdHttp.CodeUtil
import WdHttp.UriUtil
import WdHttp.HttpServer
import WdHttp.CloudRoutes
import WdHttp.HttpFile
import WdHttp.StaticFiles
import WdHttp.ServerPush
