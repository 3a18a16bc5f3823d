import Mx.Text.Utf8
import Mx.Futures.Overflow
import Mx.Futures.Failures
import Mx.Cfg.BlockCheck
import Mx.M2Json.Tokens
import Mx.M2Json.Integers
import Mx.Bytes.RoundTrip
import Mx.Bytes.Readers
import Mx.Bytes.Codec
import Mx.Http2.ControlRoundTrip
import Mx.Json.RoundTrip
import Mx.Json.Reading
import Mx.Json.Grammar
import Mx.Json.Value
import Mx.Json.Parser
import Mx.Core.Float64
import Mx.Runtime.StringOps
import Mx.Core.CBytes
import Mx.Cfg.LoweringScope
import Mx.Cfg.Verify
import Mx.Cfg.Progress
import Mx.Cfg.LoweringProgress
import Mx.Cfg.Runs
import Mx.Cfg.Buildable
import Mx.Cfg.Meaning
import Mx.Cfg.CleanupCorrect
import Mx.Cfg.Fixpoint
import Mx.Cfg.Region
import Mx.Cfg.LockRelease
import Mx.Cfg.LintSound
import Mx.Cfg.Stored
import Mx.Cfg.ExitTarget
import Mx.Codegen.BinaryOp
import Mx.Codegen.SwitchArm
import Mx.Codegen.ExprParse
import Mx.Codegen.IndexEval
import Mx.Codegen.ParamPassing
import Mx.Codegen.LlvmCaptures
import Mx.Codegen.ValueParams
import Mx.Codegen.VariantStorage
import Mx.Http2.Exchange
import Mx.Http2.Packets
import Mx.Http2.HpackSync
import Mx.Http2.HpackSafety
import Mx.Codegen.NameClash
import Mx.Codegen.BuiltinAgree
import Mx.Codegen.StorageSizes
import Mx.Codegen.Division
import Mx.Sema.Ast
import Mx.Sema.Symtab
import Mx.Sema.ConstEval
import Mx.Sema.Folding
import Mx.Sema.Constants
import Mx.Sema.Convergence
import Mx.Rpc.Framing
import Mx.Rpc.RoundTrip
import Mx.Core.Machine
import Mx.Http2.SettingsAgree
import Mx.Http2.ClientStreams
import Mx.Http2.ServerStreams
import Mx.Http2.Rejected
import Mx.Core.Fitting
import Mx.Http2.HpackFifo
import Mx.Http2.HpackInts
import Mx.Core.PrefixCode
import Mx.Core.BitTrie
import Mx.Http2.Huffman
import Mx.Http2.HuffmanDecode
import Mx.Http2.HuffmanCoding
import Mx.Core.Strings
import Mx.Pkg.Lockfile
import Mx.Pkg.LockRoundTrip
import Mx.Pkg.Resolver
import Mx.Pkg.Closure
import Mx.Pkg.Semver
import Mx.Pkg.Registry
import Mx.Pkg.Pinned
import Mx.Pkg.Cache
import Mx.Futures.Promise
import Mx.Futures.Pools
import Mx.Futures.Order
import Mx.Pkg.Manifest
import Mx.Pkg.ManifestAgree
import Mx.Build.Project
import Mx.Build.UpToDate
import Mx.Http1.Buffers
import Mx.Http1.Client
import Mx.Http1.Wire
import Mx.Http1.Decoded
import Mx.Auth.Replay
import Mx.HirBuild.CallTypes
import Mx.HirBuild.OpenArrays
import Mx.HirBuild.ForStatement
import Mx.Lexer.Numbers
import Mx.Lexer.Comments
import Mx.Lexer.Features
import Mx.Codegen.LiteralEmit
import Mx.Codegen.SetAlgebra
import Mx.Types.RecordLayout
import Mx.Core.CGrammar
import Mx.Codegen.PlacePath
import Mx.Core.Layout
import Mx.Codegen.Subscripts
import Mx.Core.Asking
import Mx.Sema.AliasInvariance
import Mx.Parser.Units
