import ElfHook.Inline32.Runs
import ElfHook.Inline64.Hook
import ElfHook.Lib.Run
import ElfHook.SoTool.ModuleBase
import ElfHook.Thread.AllStacks
import ElfHook.Thread.Attachment
import ElfHook.Thread.Capture
import ElfHook.Thread.Filter
import ElfHook.Thread.NativeText
import ElfHook.Thread.References
import ElfHook.Thread.Retrievable
import ElfHook.Thread.Transparent
import ElfHook.XHook.AsyncProgress
import ElfHook.XHook.Complete
import ElfHook.XHook.Lookup
import ElfHook.XHook.PackedDecode
import ElfHook.XHook.PackedPrefix
import ElfHook.XHook.ThreadHook
import ElfHook.Xunwind.FramePointer
