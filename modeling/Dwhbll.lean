import Dwhbll.Ring.Theorems
import Dwhbll.Ring.Access
import Dwhbll.Ring.Iterator
import Dwhbll.Ring.Bulk
import Dwhbll.Queues.Capacity
import Dwhbll.Queues.Lemmas.SpscInvariant
import Dwhbll.Queues.Lemmas.MpscInvariant
import Dwhbll.Queues.Lemmas.MpscGet
import Dwhbll.Queues.Theorems
import Dwhbll.Lib.Linked
import Dwhbll.Stack.Basic
import Dwhbll.Stack.Lemmas.Layout
import Dwhbll.Stack.Lemmas.Values
import Dwhbll.Stack.Theorems
import Dwhbll.Streams.Basic
import Dwhbll.Streams.Cursor
import Dwhbll.Streams.Lemmas.Scan
import Dwhbll.Streams.Lemmas.Stream
import Dwhbll.Streams.Lemmas.Cached
import Dwhbll.Streams.Lemmas.Coherent
import Dwhbll.Streams.Lemmas.AtEnd
import Dwhbll.Streams.Theorems
import Dwhbll.Dns.Message
import Dwhbll.Lib.Words
import Dwhbll.Ring.Lemmas.Flat
import Dwhbll.Dns.Lemmas.Reading
import Dwhbll.Dns.Format
import Dwhbll.Dns.Lemmas.Header
import Dwhbll.Dns.Lemmas.Name
import Dwhbll.Dns.Theorems
import Dwhbll.Json.Basic
import Dwhbll.Json.Parser
import Dwhbll.Json.Grammar
import Dwhbll.Json.Lemmas.Reading
import Dwhbll.Json.Lemmas.Values
import Dwhbll.Json.Lemmas.Writing
import Dwhbll.Json.Theorems
import Dwhbll.Coroutine.Lemmas.Reactor
import Dwhbll.Coroutine.Semaphore
import Dwhbll.Coroutine.Theorems
import Dwhbll.Dns.Compression
import Dwhbll.Dns.Query
import Dwhbll.Lib.Blocks
import Dwhbll.Pool.Basic
import Dwhbll.Pool.Lemmas
import Dwhbll.Pool.Theorems
import Dwhbll.Sha1.Basic
import Dwhbll.Sha1.Lemmas
import Dwhbll.Sha1.Theorems
import Dwhbll.Sockets.Basic
import Dwhbll.Sockets.Lemmas.Inbound
import Dwhbll.Sockets.Lemmas.Outbound
import Dwhbll.Sockets.Theorems
import Dwhbll.Sockets.NetworkBuffer
import Dwhbll.Arc4.Stream
import Dwhbll.Arc4.Permutation
import Dwhbll.Cache.Entries
import Dwhbll.Files.FileMgr
import Dwhbll.Http.Socket
import Dwhbll.Http.Requests
import Dwhbll.Http.Lines
import Dwhbll.Http.Fields
import Dwhbll.Http.Headers
import Dwhbll.Lib.Loops
import Dwhbll.Lib.Shared
import Dwhbll.MemBuf.Basic
import Dwhbll.MemBuf.Theorems
import Dwhbll.StlExt.Cow
import Dwhbll.Tokenizer.Basic
import Dwhbll.Tokenizer.Layout
import Dwhbll.Tokenizer.Lemmas.Cursor
import Dwhbll.Tokenizer.Lemmas.Hash
import Dwhbll.Tokenizer.Lemmas.Layout
import Dwhbll.Tokenizer.Theorems
import Dwhbll.Console.Logging
import Dwhbll.Http.Sending
import Dwhbll.Lib.Rewriting
import Dwhbll.Lib.Splitting
import Dwhbll.Linalg.Matrix
import Dwhbll.Linalg.Theorems
import Dwhbll.Linalg.Gpu
import Dwhbll.Tokenizer.Keywords
import Dwhbll.Tokenizer.Lemmas.Branches
import Dwhbll.Tokenizer.Literals
import Dwhbll.Tokenizer.Comments
import Dwhbll.Tokenizer.Directives
import Dwhbll.Tokenizer.Counters
import Dwhbll.Tokenizer.Operators
import Dwhbll.Tokenizer.Positions
import Dwhbll.Graphics.Bitmap
import Dwhbll.Coroutine.Timers
import Dwhbll.Coroutine.Wrappers.Writing
import Dwhbll.Coroutine.Wrappers.Reading
import Dwhbll.Coroutine.Wrappers.Readexactly
import Dwhbll.Coroutine.Wrappers.Seeking
import Dwhbll.Files.Refills
import Dwhbll.Files.Crlf
import Dwhbll.Lib.Search
import Dwhbll.Lib.Relational
import Dwhbll.Lib.Pipes
import Dwhbll.MemBuf.Contents
import Dwhbll.Subprocess.Theorems
import Dwhbll.Subprocess.Progress
import Dwhbll.Subprocess.PipeRead
import Dwhbll.SortedList.Mutators
import Dwhbll.Lib.Walks
import Dwhbll.Dns.Pointers
import Dwhbll.Dns.Aliases
import Dwhbll.Dns.Addresses
import Dwhbll.Dns.Records
import Dwhbll.Dns.Rdata
import Dwhbll.Dns.Parsing
import Dwhbll.Json.Unicode
import Dwhbll.Lib.Progress
import Dwhbll.Json.Checked
import Dwhbll.Json.Lemmas.Agreement
import Dwhbll.Json.Termination
import Dwhbll.Streams.Skips
import Dwhbll.Streams.ReadAll
import Dwhbll.Lib.Pieces
import Dwhbll.Streams.Pieces
import Dwhbll.Pool.Find
import Dwhbll.Pool.Exceptions
import Dwhbll.Lib.Holders
import Dwhbll.Pool.Wrappers
import Dwhbll.Sanify.Deferred
import Dwhbll.Files.Whitespace
import Dwhbll.StlExt.Ranges
import Dwhbll.Utils.Split
import Dwhbll.Utils.Uuid
import Dwhbll.Cryptography.Hmac
import Dwhbll.Platform.Ptrace
import Dwhbll.Concurrency.Spinlock
import Dwhbll.Pool.Concurrent
import Dwhbll.Coroutine.Running
import Dwhbll.Sha1.Fips
import Dwhbll.Http.Executor
import Dwhbll.Json.Nulled
import Dwhbll.Dns.Steady
import Dwhbll.Dns.Receiving
import Dwhbll.Pool.Contents
import Dwhbll.Cache.Pooled
import Dwhbll.Cache.Cleanup
