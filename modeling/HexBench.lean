import HexBench.Design.Fetcher
import HexBench.Main
import HexBench.Proofs.Bench.ClockWave
import HexBench.Proofs.Bench.Outcome
import HexBench.Proofs.Bench.Output
import HexBench.Proofs.Bench.Tracing
import HexBench.Proofs.FileTree
import HexBench.Proofs.Image.Accounts
import HexBench.Proofs.Image.Base
import HexBench.Proofs.Image.Delivered
import HexBench.Proofs.Image.Encoding
import HexBench.Proofs.Image.FailedFill
import HexBench.Proofs.Image.Filters
import HexBench.Proofs.Image.FirstWords
import HexBench.Proofs.Image.Indices
import HexBench.Proofs.Image.Rejected
import HexBench.Proofs.Image.Relocation
import HexBench.Proofs.Image.Reordering
import HexBench.Proofs.Image.Reports
import HexBench.Proofs.Program
import HexBench.Proofs.Record.Corruption
import HexBench.Proofs.Session.Initialise
import HexBench.Proofs.Session.Log
import HexBench.Proofs.Session.LogSettings
import HexBench.Proofs.Session.Policy
import HexBench.Proofs.Settings
import HexBench.Proofs.Wave.ChangesOnly
import HexBench.Proofs.Wave.FailedHeader
import HexBench.Proofs.Wave.FailedSample
import HexBench.Proofs.Wave.Identifier
import HexBench.Proofs.Wave.Reading
import HexBench.Proofs.Wave.Replay
import HexBench.Proofs.Wave.Room
import HexBench.Proofs.Wave.Sink
import HexBench.Proofs.Wave.Table
